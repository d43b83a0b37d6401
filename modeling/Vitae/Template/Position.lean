import Vitae.Text.Bytes
import Vitae.Template.Section
/-!
# Tags and sections by their offsets

The offsets of a tag are byte counts from the beginning of the template: `start` is where its first
brace stands and `stop` is one past its last. A scan may begin at any offset; one that lies inside a
character or past the end of the template finds nothing.
-/

namespace Vitae.Template

/-- A tag with its place in the template. -/
structure PlacedTag where
  tag : Tag
  /-- The offset of its first brace. -/
  start : Nat
  /-- The offset after its last brace. -/
  stop : Nat
  deriving Repr, DecidableEq

/-- The tag of a cut, when the text that was cut begins at the offset `origin`. -/
def Cut.placed (c : Cut) (origin : Nat) : PlacedTag :=
  let start := origin + Text.byteCount c.before
  ⟨c.tag, start, start + Text.byteCount c.inner + 4⟩

/-- The first complete tag at or after an offset. -/
def tagFrom? (template : List Char) (origin : Nat) : Option PlacedTag :=
  match Text.dropBytes? origin template with
  | none => none
  | some t => (cut t).map (·.placed origin)

/-- All tags of a text that begins at the offset `origin`, each sought from the end of the one
before it. -/
def tagsFrom (origin : Nat) (t : List Char) : List PlacedTag :=
  match _h : cut t with
  | none => []
  | some c => c.placed origin :: tagsFrom (c.placed origin).stop c.after
termination_by t.length
decreasing_by exact length_after_lt _h

theorem tagsFrom_of_none {t : List Char} (h : cut t = none) (origin : Nat) :
    tagsFrom origin t = [] := by
  rw [tagsFrom]
  split
  · rfl
  · simp_all

theorem tagsFrom_of_cut {t : List Char} {c : Cut} (h : cut t = some c) (origin : Nat) :
    tagsFrom origin t = c.placed origin :: tagsFrom (c.placed origin).stop c.after := by
  rw [tagsFrom]
  split
  · simp_all
  · rename_i c' h'
    obtain rfl : c = c' := by simpa [h] using h'
    rfl

/-- All tags of a template. -/
def allTags (template : List Char) : List PlacedTag := tagsFrom 0 template

/-- The place of a section's body and of its end. -/
structure SectionSpan where
  /-- The offset where the body begins. -/
  start : Nat
  /-- The offset where the body ends and the close tag begins. -/
  stop : Nat
  /-- The offset after the close tag. -/
  next : Nat
  deriving Repr, DecidableEq

/-- The place of a section in a text that begins at the offset `origin`. -/
def SectionEnd.placed (found : SectionEnd) (origin : Nat) (t : List Char) : SectionSpan :=
  ⟨origin, origin + Text.byteCount (t.take found.body), origin + Text.byteCount (t.take found.stop)⟩

/-- The place of the section called `name` whose opening tag ends at the offset `origin`. -/
def sectionAt (template : List Char) (origin : Nat) (name : String) :
    Metered (Option SectionSpan) :=
  match Text.dropBytes? origin template with
  | none => .done none
  | some t => do return (← sectionEnd name t).map (·.placed origin t)

end Vitae.Template
