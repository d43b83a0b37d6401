import Mathlib.Data.List.Basic
import Vitae.Text.Numeral

/-!
# The grammar of numerals

`readNumeral` goes through a text from the left and stops at the first thing that is wrong. Here the
same is said without reading: which texts are numerals, and of what number (`IsNumeral`), and where
the first thing wrong stands in a text that is none (`Faulty`). A value that is too large is met at
the first digit that takes it to the bound, so a foreign character behind that digit is not met any
more, and one before it is met first.

The bound is met while reading and not at the end, but nothing is lost by this: digits never make a
number smaller (`le_ofDigitChars`). What the digits read so far come to is the parameter of both
inductions (`readDigits_eq_ok_iff`, `readDigits_eq_error_iff`).
-/

namespace Vitae.Text

/-! ### Which texts are numerals -/

/-- Whether a text consists of ASCII digits. -/
def AllDigits (s : List Char) : Prop := ∀ c ∈ s, c.isDigit = true

instance (s : List Char) : Decidable (AllDigits s) :=
  List.decidableBAll (fun c : Char => c.isDigit = true) s

/-- The number that digits write. -/
def digitsNumber (digits : List Char) : Nat := Nat.ofDigitChars 10 digits 0

/-- Whether a text writes the number `n`: one or more digits, and perhaps a plus sign before
them. -/
def IsNumeral (s : List Char) (n : Nat) : Prop :=
  ∃ digits, (s = digits ∨ s = '+' :: digits) ∧ digits ≠ [] ∧ AllDigits digits ∧
    digitsNumber digits = n

/-- The text behind the plus sign, if there is one. -/
def unsigned : List Char → List Char
  | '+' :: rest => rest
  | s => s

/-- Whether a reader who wants a number below the bound comes to the character `c` after the digits
`front`, which write such a number. -/
def ComesTo (bound : Nat) (s front : List Char) (c : Char) : Prop :=
  (∃ rest, unsigned s = front ++ c :: rest) ∧ AllDigits front ∧ digitsNumber front < bound

/-- What is the first thing wrong with a text that is to write a number below the bound. -/
inductive Faulty (bound : Nat) (s : List Char) : NumeralFault → Prop where
  | empty (h : s = []) : Faulty bound s .empty
  /-- There is a sign and nothing behind it. -/
  | sign (h : s = ['+']) : Faulty bound s .invalidDigit
  | invalidDigit {front : List Char} {c : Char} (h : ComesTo bound s front c)
      (hc : c.isDigit = false) : Faulty bound s .invalidDigit
  | tooLarge {front : List Char} {c : Char} (h : ComesTo bound s front c)
      (hc : c.isDigit = true) (hlarge : bound ≤ digitsNumber (front ++ [c])) :
      Faulty bound s .tooLarge

/-! ### Reading digits -/

theorem allDigits_cons_iff {c : Char} {s : List Char} :
    AllDigits (c :: s) ↔ c.isDigit = true ∧ AllDigits s := List.forall_mem_cons

/-- A number with one more digit. -/
def withDigit (n : Nat) (c : Char) : Nat := 10 * n + (c.toNat - '0'.toNat)

theorem ofDigitChars_cons (c : Char) (rest : List Char) (n : Nat) :
    Nat.ofDigitChars 10 (c :: rest) n = Nat.ofDigitChars 10 rest (withDigit n c) :=
  Nat.ofDigitChars_cons

/-- More digits make no number smaller. -/
theorem le_ofDigitChars (n : Nat) (s : List Char) : n ≤ Nat.ofDigitChars 10 s n := by
  induction s generalizing n with
  | nil => exact Nat.le_refl n
  | cons c rest ih =>
      have hdigit : n ≤ withDigit n c := by
        unfold withDigit
        omega
      rw [ofDigitChars_cons]
      exact Nat.le_trans hdigit (ih (withDigit n c))

/-- The value of a digit is its distance from the digit zero. -/
theorem digitValue?_eq (c : Char) :
    digitValue? c = if c.isDigit then some (c.toNat - '0'.toNat) else none := by
  unfold digitValue?
  refine if_congr ?_ rfl rfl
  simp [Char.isDigit, Char.le_def]

variable {bound n m : Nat} {s rest : List Char} {c : Char} {fault : NumeralFault}

/-- A digit is taken on as long as the value stays below the bound. -/
theorem readDigits_cons :
    readDigits bound n (c :: rest) =
      if c.isDigit then
        if withDigit n c < bound then readDigits bound (withDigit n c) rest else .error .tooLarge
      else .error .invalidDigit := by
  rw [readDigits, digitValue?_eq]
  cases c.isDigit <;> rfl

/-- Digits are read through to the end exactly when the number they write is below the bound. -/
theorem readDigits_eq_ok_iff (hn : n < bound) :
    readDigits bound n s = .ok m ↔ AllDigits s ∧ Nat.ofDigitChars 10 s n = m ∧ m < bound := by
  induction s generalizing n with
  | nil =>
      simp only [readDigits, AllDigits, Except.ok.injEq, Nat.ofDigitChars_nil]
      grind
  | cons c rest ih =>
      rw [readDigits_cons, allDigits_cons_iff, ofDigitChars_cons]
      cases c.isDigit with
      | false => simp
      | true =>
          by_cases hlt : withDigit n c < bound
          · simp [hlt, ih hlt]
          · have hle := le_ofDigitChars (withDigit n c) rest
            simp only [hlt, if_false, if_true, reduceCtorEq, false_iff]
            omega

/-- Whether reading on from the value `n` stops with a fault: at the first character that is no
digit or takes the value to the bound. -/
def Stops (bound n : Nat) (s : List Char) (fault : NumeralFault) : Prop :=
  ∃ front c rest, s = front ++ c :: rest ∧ AllDigits front ∧ Nat.ofDigitChars 10 front n < bound ∧
    (c.isDigit = false ∧ fault = .invalidDigit ∨
      c.isDigit = true ∧ bound ≤ Nat.ofDigitChars 10 (front ++ [c]) n ∧ fault = .tooLarge)

theorem not_stops_nil : ¬ Stops bound n [] fault := by
  rintro ⟨front, c, rest, hs, -⟩
  simp at hs

/-- Reading stops at the first character of a text, or goes on behind it. -/
theorem stops_cons_iff (hn : n < bound) :
    Stops bound n (c :: rest) fault ↔
      c.isDigit = false ∧ fault = .invalidDigit ∨
        c.isDigit = true ∧ bound ≤ withDigit n c ∧ fault = .tooLarge ∨
          c.isDigit = true ∧ withDigit n c < bound ∧ Stops bound (withDigit n c) rest fault := by
  constructor
  · rintro ⟨front, d, behind, hs, hfront, hlt, hend⟩
    cases front with
    | nil =>
        obtain ⟨rfl, rfl⟩ := List.cons.inj hs
        exact hend.imp_right .inl
    | cons e front =>
        obtain ⟨rfl, rfl⟩ := List.cons.inj hs
        obtain ⟨hdigit, hfront⟩ := allDigits_cons_iff.mp hfront
        have hpass : withDigit n c < bound := Nat.lt_of_le_of_lt (le_ofDigitChars _ front) hlt
        exact .inr (.inr ⟨hdigit, hpass, front, d, behind, rfl, hfront, hlt, hend⟩)
  · rintro (⟨hc, rfl⟩ | ⟨hc, hlarge, rfl⟩ | ⟨hc, -, front, d, behind, rfl, hfront, hlt, hend⟩)
    · exact ⟨[], c, rest, rfl, List.forall_mem_nil _, hn, .inl ⟨hc, rfl⟩⟩
    · exact ⟨[], c, rest, rfl, List.forall_mem_nil _, hn, .inr ⟨hc, hlarge, rfl⟩⟩
    · exact ⟨c :: front, d, behind, rfl, allDigits_cons_iff.mpr ⟨hc, hfront⟩, hlt, hend⟩

theorem readDigits_eq_error_iff (hn : n < bound) :
    readDigits bound n s = .error fault ↔ Stops bound n s fault := by
  induction s generalizing n with
  | nil => exact iff_of_false (by simp [readDigits]) not_stops_nil
  | cons c rest ih =>
      rw [readDigits_cons, stops_cons_iff hn]
      cases c.isDigit with
      | false => simp [eq_comm]
      | true =>
          by_cases hlt : withDigit n c < bound
          · simp [hlt, Nat.not_le_of_lt hlt, ih hlt]
          · simp [hlt, Nat.le_of_not_lt hlt, eq_comm]

/-! ### Reading numerals -/

/-- Where there is something behind the sign, that is what is read. -/
theorem readNumeral_eq_readDigits (h : unsigned s ≠ []) :
    readNumeral bound s = readDigits bound 0 (unsigned s) := by
  unfold readNumeral unsigned at *
  split <;> simp_all

theorem unsigned_eq_nil_iff : unsigned s = [] ↔ s = [] ∨ s = ['+'] := by
  unfold unsigned
  split
  · simp
  · simp_all

/-- The digits of a numeral are what stands behind its sign. -/
theorem isNumeral_iff :
    IsNumeral s n ↔ unsigned s ≠ [] ∧ AllDigits (unsigned s) ∧ digitsNumber (unsigned s) = n := by
  constructor
  · rintro ⟨digits, rfl | rfl, hne, hdigits, hn⟩
    · -- a digit is no sign
      have hplain : unsigned s = s := by
        unfold unsigned
        split
        · exact absurd (hdigits '+' List.mem_cons_self) (by decide)
        · rfl
      rw [hplain]
      exact ⟨hne, hdigits, hn⟩
    · exact ⟨hne, hdigits, hn⟩
  · rintro ⟨hne, hdigits, hn⟩
    refine ⟨unsigned s, ?_, hne, hdigits, hn⟩
    unfold unsigned
    split
    · exact .inr rfl
    · exact .inl rfl

/-- Behind a sign, what is wrong with a text is where the reading of its digits stops. -/
theorem faulty_iff_stops (h : unsigned s ≠ []) :
    Faulty bound s fault ↔ Stops bound 0 (unsigned s) fault := by
  obtain ⟨hempty, hsign⟩ := not_or.mp (mt unsigned_eq_nil_iff.mpr h)
  constructor
  · intro hfaulty
    cases hfaulty with
    | empty hs => exact absurd hs hempty
    | sign hs => exact absurd hs hsign
    | @invalidDigit front c hcomes hc =>
        obtain ⟨⟨rest, hs⟩, hfront, hlt⟩ := hcomes
        exact ⟨front, c, rest, hs, hfront, hlt, .inl ⟨hc, rfl⟩⟩
    | @tooLarge front c hcomes hc hlarge =>
        obtain ⟨⟨rest, hs⟩, hfront, hlt⟩ := hcomes
        exact ⟨front, c, rest, hs, hfront, hlt, .inr ⟨hc, hlarge, rfl⟩⟩
  · rintro ⟨front, c, rest, hs, hfront, hlt, ⟨hc, rfl⟩ | ⟨hc, hlarge, rfl⟩⟩
    · exact .invalidDigit ⟨⟨rest, hs⟩, hfront, hlt⟩ hc
    · exact .tooLarge ⟨⟨rest, hs⟩, hfront, hlt⟩ hc hlarge

theorem not_comesTo (h : unsigned s = []) (front : List Char) (c : Char) :
    ¬ ComesTo bound s front c := by
  rintro ⟨⟨rest, hs⟩, -, -⟩
  simp [h] at hs

/-- **What is read as a number.** A text is read as `n` exactly when it is a numeral of `n` and `n`
is below the bound. -/
theorem readNumeral_eq_ok_iff (hbound : 0 < bound) :
    readNumeral bound s = .ok n ↔ IsNumeral s n ∧ n < bound := by
  rw [isNumeral_iff]
  by_cases h : unsigned s = []
  · refine iff_of_false ?_ (fun hs => hs.1.1 h)
    rcases unsigned_eq_nil_iff.mp h with rfl | rfl <;> simp [readNumeral]
  · rw [readNumeral_eq_readDigits h, readDigits_eq_ok_iff hbound]
    simp only [h, ne_eq, not_false_eq_true, true_and, and_assoc, digitsNumber]

/-- **What is wrong with other texts.** Reading fails with the first thing that is wrong. -/
theorem readNumeral_eq_error_iff (hbound : 0 < bound) :
    readNumeral bound s = .error fault ↔ Faulty bound s fault := by
  by_cases h : unsigned s = []
  · have hread : readNumeral bound s = .error fault ↔
        s = [] ∧ fault = .empty ∨ s = ['+'] ∧ fault = .invalidDigit := by
      rcases unsigned_eq_nil_iff.mp h with rfl | rfl <;> simp [readNumeral, eq_comm]
    rw [hread]
    constructor
    · rintro (⟨hs, rfl⟩ | ⟨hs, rfl⟩)
      · exact .empty hs
      · exact .sign hs
    · intro hfaulty
      cases hfaulty with
      | empty hs => exact .inl ⟨hs, rfl⟩
      | sign hs => exact .inr ⟨hs, rfl⟩
      | invalidDigit hcomes => exact absurd hcomes (not_comesTo h _ _)
      | tooLarge hcomes => exact absurd hcomes (not_comesTo h _ _)
  · rw [readNumeral_eq_readDigits h, readDigits_eq_error_iff hbound, faulty_iff_stops h]

end Vitae.Text
