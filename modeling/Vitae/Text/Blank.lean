/-!
# Blank characters and trimming

Blank characters are those of the Unicode property White_Space. `trim` takes them off both ends of
a text; a text that neither begins nor ends with one is left alone (`trim_eq_self`), so trimming
twice is trimming once (`trim_trim`).
-/

namespace Vitae.Text

/-- The code points of the Unicode property White_Space, as closed ranges in ascending order. -/
def blankRanges : List (Nat × Nat) :=
  [(0x9, 0xD), (0x20, 0x20), (0x85, 0x85), (0xA0, 0xA0), (0x1680, 0x1680), (0x2000, 0x200A),
    (0x2028, 0x2029), (0x202F, 0x202F), (0x205F, 0x205F), (0x3000, 0x3000)]

/-- Whether `c` has the property White_Space. -/
def isBlank (c : Char) : Bool :=
  blankRanges.any fun range => range.1 ≤ c.toNat && c.toNat ≤ range.2

/-- Takes the blank characters off the front of a text. -/
def trimFront (s : List Char) : List Char := s.dropWhile isBlank

/-- Takes the blank characters off both ends of a text. -/
def trim (s : List Char) : List Char := (trimFront (trimFront s).reverse).reverse

/-- `trim` on strings. -/
def trimmed (s : String) : String := String.ofList (trim s.toList)

/-! ### What trimming leaves alone -/

@[simp] theorem trimFront_nil : trimFront [] = [] := rfl

theorem trimFront_cons (c : Char) (s : List Char) :
    trimFront (c :: s) = if isBlank c then trimFront s else c :: s := by
  unfold trimFront
  cases h : isBlank c <;> simp [h]

/-- Nothing is taken off a text that begins with no blank. -/
theorem trimFront_eq_self {s : List Char} (h : ∀ c, s.head? = some c → isBlank c = false) :
    trimFront s = s := by
  cases s with
  | nil => rfl
  | cons c r => simp [trimFront_cons, h c rfl]

/-- What is left begins with no blank. -/
theorem isBlank_head_trimFront {s : List Char} {c : Char} (h : (trimFront s).head? = some c) :
    isBlank c = false := by
  induction s with
  | nil => simp at h
  | cons d r ih =>
    rw [trimFront_cons] at h
    split at h
    · exact ih h
    · rename_i hd
      obtain rfl : d = c := by simpa using h
      simpa using hd

theorem trimFront_suffix (s : List Char) : trimFront s <:+ s := List.dropWhile_suffix _

@[simp] theorem trim_nil : trim [] = [] := rfl

/-- A text that neither begins nor ends with a blank is left alone. -/
theorem trim_eq_self {s : List Char} (front : ∀ c, s.head? = some c → isBlank c = false)
    (back : ∀ c, s.getLast? = some c → isBlank c = false) : trim s = s := by
  unfold trim
  rw [trimFront_eq_self front, trimFront_eq_self (by simpa using back), List.reverse_reverse]

/-- What is left ends with no blank. -/
theorem isBlank_getLast_trim {s : List Char} {c : Char} (h : (trim s).getLast? = some c) :
    isBlank c = false :=
  isBlank_head_trimFront (s := (trimFront s).reverse) (by simpa [trim] using h)

/-- What is left begins with no blank. -/
theorem isBlank_head_trim {s : List Char} {c : Char} (h : (trim s).head? = some c) :
    isBlank c = false := by
  obtain ⟨pre, hpre⟩ := trimFront_suffix (trimFront s).reverse
  have hs : trim s ++ pre.reverse = trimFront s := by
    have := congrArg List.reverse hpre
    simpa [trim] using this
  apply isBlank_head_trimFront (s := s)
  rw [← hs, List.head?_append, h]
  rfl

@[simp] theorem trim_trim (s : List Char) : trim (trim s) = trim s :=
  trim_eq_self (fun _ h => isBlank_head_trim h) (fun _ h => isBlank_getLast_trim h)

@[simp] theorem toList_trimmed (s : String) : (trimmed s).toList = trim s.toList := by
  simp [trimmed]

@[simp] theorem trimmed_empty : trimmed "" = "" := rfl

@[simp] theorem trimmed_trimmed (s : String) : trimmed (trimmed s) = trimmed s := by
  simp [trimmed]

end Vitae.Text
