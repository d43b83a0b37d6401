import Mathlib.Data.List.Infix
import Mathlib.Data.List.TakeWhile

/-!
# Reading markup from the left

A reader takes a phrase off the front of a text. `Reads` says that it takes what spells a value, in
the one way in which that is spelled, whatever stands behind the phrase; since it is an equivalence,
a reader with this property also shows that no text begins with the phrases of two values.

The content of an element holds no `<`, so that it ends where its closing tag begins
(`reads_readElement`). `many` takes phrases until no further one can be read, so what it leaves has
to be a text on which the reader fails (`many_eq_iff`).
-/

namespace Vitae.Html

variable {α : Type}

/-- Whether a reader takes just the phrases of the values that are allowed. -/
def Reads (read : List Char → Option (α × List Char)) (allowed : α → Prop)
    (spell : α → List Char) : Prop :=
  ∀ s a rest, read s = some (a, rest) ↔ allowed a ∧ s = spell a ++ rest

/-! ### Pieces of markup -/

/-- What stands behind a piece of markup. -/
def behind? (piece : String) (s : List Char) : Option (List Char) := s.dropPrefix? piece.toList

@[simp] theorem behind?_eq_some_iff {piece : String} {s rest : List Char} :
    behind? piece s = some rest ↔ s = piece.toList ++ rest := by
  simp [behind?, List.dropPrefix?_eq_some_iff]

/-- Whether neither of two pieces begins with the other. -/
def Apart (piece other : String) : Prop :=
  ¬ piece.toList <+: other.toList ∧ ¬ other.toList <+: piece.toList

instance (piece other : String) : Decidable (Apart piece other) :=
  inferInstanceAs (Decidable (_ ∧ _))

/-- Where one piece stands, no other one does. -/
theorem Apart.behind?_eq_none {piece other : String} (h : Apart piece other) (rest : List Char) :
    behind? piece (other.toList ++ rest) = none := by
  refine Option.eq_none_iff_forall_ne_some.mpr fun left hleft => ?_
  have hpiece : piece.toList <+: other.toList ++ rest :=
    ⟨left, (behind?_eq_some_iff.mp hleft).symm⟩
  rcases List.prefix_or_prefix_of_prefix hpiece (List.prefix_append ..) with hprefix | hprefix
  · exact h.1 hprefix
  · exact h.2 hprefix

/-! ### Elements -/

/-- The markup of an element with this content. -/
def element (opening closing : String) (content : List Char) : List Char :=
  opening.toList ++ content ++ closing.toList

/-- Reads an element: its content goes up to the next tag. -/
def readElement (opening closing : String) (s : List Char) : Option (List Char × List Char) := do
  let s ← behind? opening s
  let rest ← behind? closing (s.dropWhile (· ≠ '<'))
  return (s.takeWhile (· ≠ '<'), rest)

/-- What stands before the next tag, and what stands from there on. -/
theorem takeWhile_dropWhile_of_plain {content : List Char} (h : '<' ∉ content)
    (rest : List Char) :
    (content ++ '<' :: rest).takeWhile (· ≠ '<') = content ∧
      (content ++ '<' :: rest).dropWhile (· ≠ '<') = '<' :: rest := by
  have hplain : ∀ c ∈ content, decide (c ≠ '<') = true := by
    intro c hc
    exact decide_eq_true fun heq => h (heq ▸ hc)
  constructor
  · rw [List.takeWhile_append_of_pos hplain]
    simp
  · rw [List.dropWhile_append_of_pos hplain]
    simp

theorem reads_readElement (opening : String) {closing : String}
    (hclosing : closing.toList.head? = some '<') :
    Reads (readElement opening closing) ('<' ∉ ·) (element opening closing) := by
  intro s content rest
  simp only [readElement, Option.pure_def, Option.bind_eq_bind, Option.bind_eq_some_iff,
    behind?_eq_some_iff, Option.some.injEq, Prod.mk.injEq]
  constructor
  · intro h
    obtain ⟨inner, rfl, left, hleft, rfl, rfl⟩ := h
    refine ⟨fun hmem => ?_, ?_⟩
    · simpa using List.mem_takeWhile_imp hmem
    · rw [element, List.append_assoc, List.append_assoc, ← hleft, List.takeWhile_append_dropWhile]
  · intro h
    obtain ⟨hplain, rfl⟩ := h
    obtain ⟨more, hmore⟩ : ∃ more, closing.toList = '<' :: more :=
      List.head?_eq_some_iff.mp hclosing
    obtain ⟨htake, hdrop⟩ := takeWhile_dropWhile_of_plain hplain (more ++ rest)
    refine ⟨content ++ '<' :: (more ++ rest), by simp [element, hmore], rest, ?_, htake, rfl⟩
    rw [hdrop, hmore, List.cons_append]

theorem readElement_eq_none {opening : String} {s : List Char} (h : behind? opening s = none)
    (closing : String) : readElement opening closing s = none := by
  simp [readElement, h]

/-! ### Phrases that may be missing, and phrases in a row -/

/-- Reads a phrase if there is one. -/
def optional (read : List Char → Option (α × List Char)) (s : List Char) : Option α × List Char :=
  match read s with
  | some (a, rest) => (some a, rest)
  | none => (none, s)

/-- Reads phrases as long as there are any. -/
def many (read : List Char → Option (α × List Char)) (s : List Char) : List α × List Char :=
  match read s with
  | some (a, rest) =>
    if _h : rest.length < s.length then (a :: (many read rest).1, (many read rest).2) else ([], s)
  | none => ([], s)
termination_by s.length

section

variable {read : List Char → Option (α × List Char)} {allowed : α → Prop}
  {spell : α → List Char}

theorem optional_eq_iff (h : Reads read allowed spell) {s rest : List Char} {found : Option α} :
    optional read s = (found, rest) ↔
      (∀ a ∈ found, allowed a) ∧ s = found.toList.flatMap spell ++ rest ∧
        (found = none → read rest = none) := by
  constructor
  · intro hoptional
    unfold optional at hoptional
    split at hoptional
    · rename_i a left hread
      obtain ⟨rfl, rfl⟩ := Prod.mk.inj hoptional
      obtain ⟨ha, rfl⟩ := (h ..).mp hread
      simp [ha]
    · rename_i hread
      obtain ⟨rfl, rfl⟩ := Prod.mk.inj hoptional
      simp [hread]
  · intro hspelled
    obtain ⟨hallowed, rfl, hstop⟩ := hspelled
    cases found with
    | none => simp [optional, hstop rfl]
    | some a =>
        have hread : read (spell a ++ rest) = some (a, rest) := (h ..).mpr ⟨hallowed a rfl, rfl⟩
        simp [optional, hread]

/-- Where a phrase follows, it is the first one of a row. -/
theorem many_cons (h : Reads read allowed spell) {a : α} (ha : allowed a) (hne : spell a ≠ [])
    (rest : List Char) :
    many read (spell a ++ rest) = (a :: (many read rest).1, (many read rest).2) := by
  have hread : read (spell a ++ rest) = some (a, rest) := (h ..).mpr ⟨ha, rfl⟩
  have hshorter : rest.length < (spell a ++ rest).length := by
    have := List.length_pos_iff.mpr hne
    rw [List.length_append]
    omega
  rw [many, hread]
  exact dif_pos hshorter

theorem many_eq_iff (h : Reads read allowed spell) (hne : ∀ a, spell a ≠ []) {s rest : List Char}
    {row : List α} :
    many read s = (row, rest) ↔
      (∀ a ∈ row, allowed a) ∧ s = row.flatMap spell ++ rest ∧ read rest = none := by
  constructor
  · intro hmany
    fun_induction many read s generalizing row with
    | case1 s a left hread hshorter ih =>
        obtain ⟨rfl, rfl⟩ := Prod.mk.inj hmany
        obtain ⟨ha, rfl⟩ := (h ..).mp hread
        obtain ⟨hrow, hleft, hrest⟩ := ih rfl
        refine ⟨List.forall_mem_cons.mpr ⟨ha, hrow⟩, ?_, hrest⟩
        rw [List.flatMap_cons, List.append_assoc, ← hleft]
    | case2 s a left hread hshorter =>
        obtain ⟨-, rfl⟩ := (h ..).mp hread
        have := List.length_pos_iff.mpr (hne a)
        rw [List.length_append] at hshorter
        omega
    | case3 s hread =>
        obtain ⟨rfl, rfl⟩ := Prod.mk.inj hmany
        exact ⟨by simp, by simp, hread⟩
  · intro hspelled
    obtain ⟨hrow, rfl, hrest⟩ := hspelled
    induction row with
    | nil =>
        rw [List.flatMap_nil, List.nil_append, many, hrest]
    | cons a row ih =>
        rw [List.flatMap_cons, List.append_assoc, many_cons h (hrow a List.mem_cons_self) (hne a),
          ih fun b hb => hrow b (List.mem_cons_of_mem _ hb)]

end

end Vitae.Html
