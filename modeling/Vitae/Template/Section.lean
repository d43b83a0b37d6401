import Vitae.Template.Tag
import Vitae.Template.Metered
/-!
# Where a section ends

The section opened by a tag ends with the close tag that balances it. Only tags of the section's own
name count: openers of either kind nest it deeper and closes bring it back. Tags of other names are
passed over, but every tag passed is one scan.
-/

namespace Vitae.Template

/-- Where a section ends, in characters from the end of its opening tag. -/
structure SectionEnd where
  body : Nat
  /-- The length of the body and the close tag. -/
  stop : Nat
  deriving Repr, DecidableEq

/-- Looks in `t` for the close tag of a section called `name`. So far `passed` characters were
passed over and `nested` sections of the same name stand open inside it. -/
def sectionEndFrom (name : String) (nested passed : Nat) (t : List Char) :
    Metered (Option SectionEnd) :=
  match _h : cut t with
  | none => .done none
  | some c => .scan fun _ =>
    let further (nested : Nat) := sectionEndFrom name nested (passed + c.stop) c.after
    if c.tag.opens? = some name then further (nested + 1)
    else if c.tag = .sectionClose name then
      match nested with
      | 0 => .done (some ⟨passed + c.before.length, passed + c.stop⟩)
      | nested + 1 => further nested
    else further nested
termination_by t.length
decreasing_by exact length_after_lt _h

theorem sectionEndFrom_of_none {t : List Char} (h : cut t = none) (name : String)
    (nested passed : Nat) : sectionEndFrom name nested passed t = .done none := by
  rw [sectionEndFrom]
  split
  · rfl
  · simp_all

/-- The search at a tag: one scan, and then the next tag unless this one ends the section. -/
theorem sectionEndFrom_of_cut {t : List Char} {c : Cut} (h : cut t = some c) (name : String)
    (nested passed : Nat) :
    sectionEndFrom name nested passed t = .scan fun _ =>
      if c.tag.opens? = some name then
        sectionEndFrom name (nested + 1) (passed + c.stop) c.after
      else if c.tag = .sectionClose name then
        match nested with
        | 0 => .done (some ⟨passed + c.before.length, passed + c.stop⟩)
        | nested + 1 => sectionEndFrom name nested (passed + c.stop) c.after
      else sectionEndFrom name nested (passed + c.stop) c.after := by
  rw [sectionEndFrom]
  split
  · simp_all
  · rename_i c' h'
    obtain rfl : c = c' := by simpa [h] using h'
    rfl

/-- Looks in the text after an opening tag for the end of the section called `name`; there is none
when the section is never closed. -/
def sectionEnd (name : String) (t : List Char) : Metered (Option SectionEnd) :=
  sectionEndFrom name 0 0 t

end Vitae.Template
