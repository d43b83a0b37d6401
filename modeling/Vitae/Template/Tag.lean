import Vitae.Text.Blank
/-!
# Tags of a template

A tag begins with the first pair of opening braces of a text and ends with the first pair of
closing braces after it. `cut` divides a text there into what stands before the tag, what stands
between its braces and what follows it; a text without a complete tag is not divided. The parts put
together give the text back (`eq_of_cut`), and what follows is at least four characters shorter
(`length_after_lt`), by which every scan of a template ends.

What stands between the braces decides what the tag is: `Tag.ofInner`.
-/

namespace Vitae.Template

/-! ### Cutting a text at its first tag -/

/-- Divides a text at the first place where the character `d` stands twice in a row; `before` is
what was passed over already, last character first. -/
def splitPairFrom (d : Char) (before : List Char) : List Char → Option (List Char × List Char)
  | a :: b :: rest =>
    if a = d ∧ b = d then some (before.reverse, rest) else splitPairFrom d (a :: before) (b :: rest)
  | _ => none

/-- What stands before and what stands after the first place where `d` stands twice in a row. -/
def splitPair (d : Char) (t : List Char) : Option (List Char × List Char) := splitPairFrom d [] t

/-- A text divided at its first tag. -/
structure Cut where
  /-- The literal text before the tag. -/
  before : List Char
  /-- What stands between the braces. -/
  inner : List Char
  /-- The text after the tag. -/
  after : List Char
  deriving Repr, DecidableEq

/-- The number of characters up to the end of the tag. -/
def Cut.stop (c : Cut) : Nat := c.before.length + c.inner.length + 4

/-- Divides a text at its first complete tag, if it has one. -/
def cut (t : List Char) : Option Cut :=
  match splitPair '{' t with
  | none => none
  | some (before, opened) =>
    match splitPair '}' opened with
    | none => none
    | some (inner, after) => some ⟨before, inner, after⟩

theorem eq_of_splitPairFrom {d : Char} {front t b a : List Char}
    (h : splitPairFrom d front t = some (b, a)) : front.reverse ++ t = b ++ d :: d :: a := by
  fun_induction splitPairFrom d front t with
  | case1 front x y rest hd => simp_all
  | case2 front x y rest hd ih => simpa using ih h
  | case3 => simp at h

/-- The two parts with the pair between them are the text. -/
theorem eq_of_splitPair {d : Char} {t b a : List Char} (h : splitPair d t = some (b, a)) :
    t = b ++ d :: d :: a := by
  simpa using eq_of_splitPairFrom h

/-- The parts of a cut, with the braces between them, are the text. -/
theorem eq_of_cut {t : List Char} {c : Cut} (h : cut t = some c) :
    t = c.before ++ '{' :: '{' :: (c.inner ++ '}' :: '}' :: c.after) := by
  unfold cut at h
  split at h
  · simp at h
  · rename_i b o ho
    split at h
    · simp at h
    · rename_i i a ha
      obtain rfl := Option.some.inj h
      rw [eq_of_splitPair ho, eq_of_splitPair ha]

/-- The text is as long as its first tag and what stands before and after it. -/
theorem length_of_cut {t : List Char} {c : Cut} (h : cut t = some c) :
    t.length = c.stop + c.after.length := by
  conv => lhs; rw [eq_of_cut h]
  simp only [List.length_append, List.length_cons, Cut.stop]
  omega

/-- What follows a tag is shorter than the text. -/
theorem length_after_lt {t : List Char} {c : Cut} (h : cut t = some c) :
    c.after.length < t.length := by
  have := length_of_cut h
  simp only [Cut.stop] at this
  omega

/-- So are the parts of what follows a tag. -/
theorem length_take_after_lt {t : List Char} {c : Cut} (h : cut t = some c) (n : Nat) :
    (c.after.take n).length < t.length :=
  Nat.lt_of_le_of_lt (List.length_take_le' n c.after) (length_after_lt h)

theorem length_drop_after_lt {t : List Char} {c : Cut} (h : cut t = some c) (n : Nat) :
    (c.after.drop n).length < t.length :=
  Nat.lt_of_le_of_lt (List.drop_suffix n c.after).length_le (length_after_lt h)

@[simp] theorem cut_nil : cut [] = none := rfl

/-! ### What a tag is -/

/-- A tag of a template. -/
inductive Tag where
  /-- Nothing but blanks between the braces. -/
  | empty
  /-- The value found at a path is put in its place. -/
  | substitution (path : String)
  | sectionOpen (name : String)
  /-- A section for the absence of a value begins. -/
  | invertedOpen (name : String)
  | sectionClose (name : String)
  deriving Repr, DecidableEq

namespace Tag

/-- The name after a mark. -/
def nameOf (s : List Char) : String := String.ofList (Text.trim s)

/-- The tag with this trimmed content. -/
def ofContent : List Char → Tag
  | [] => .empty
  | '#' :: name => .sectionOpen (nameOf name)
  | '^' :: name => .invertedOpen (nameOf name)
  | '/' :: name => .sectionClose (nameOf name)
  | path => .substitution (String.ofList path)

/-- The tag with this text between its braces. -/
def ofInner (inner : List Char) : Tag := ofContent (Text.trim inner)

/-- The name or path of a tag. -/
def name : Tag → String
  | .empty => ""
  | .substitution path => path
  | .sectionOpen name | .invertedOpen name | .sectionClose name => name

/-- The name of the section that begins with a tag, of either kind. -/
def opens? : Tag → Option String
  | .sectionOpen name | .invertedOpen name => some name
  | _ => none

end Tag

/-- The tag of a cut. -/
def Cut.tag (c : Cut) : Tag := Tag.ofInner c.inner

end Vitae.Template
