import Vitae.Html.Fragment
import Vitae.Html.Marker
/-!
# Values on a page

`holds` says whether a value opens a section, and `format` what is put in the place of a path. A
value that is missing opens no section and leaves no text. Finished markup is put in as it is and
everything else escaped.
-/

namespace Vitae.Html

/-- Whether what a path names opens a section. Nothing, `null`, `false`, zero, blank text, an empty
list and empty markup do not. -/
def holds (value : Option Json) : Bool :=
  match value with
  | none => false
  | some value =>
    match safe? value with
    | some markup => markup ≠ ""
    | none =>
      match value with
      | .null => false
      | .bool b => b
      | .num n => !n.isZero
      | .str s => Text.trimmed s ≠ ""
      | .arr items => !items.isEmpty
      | .obj _ => true

/-- The texts of a list, with commas between them. -/
def listHtml (items : List Json) : String := escape (", ".intercalate (listTexts items))

/-- The paths at which a list is shown as a work history. -/
def workPaths : List String := ["work_experience", "workExperience"]

/-- The path at which a list is shown as an education. -/
def educationPath : String := "education"

/-- How a list is shown at a path. -/
def formatList (items : List Json) (path : String) : String :=
  if path ∈ workPaths then workHtml items
  else if path = educationPath then educationHtml items
  else listHtml items

/-- How an object is shown: by its text, or else by its raw list. -/
def formatObject (fields : Json.Fields) : String :=
  match fields.get? "text", fields.get? "raw" with
  | some (.str text), _ => escape text
  | _, some (.arr items) => listHtml items
  | _, _ => ""

/-- The string under `text` comes first, whatever the value under `raw`. -/
theorem formatObject_eq (fields : Json.Fields) :
    formatObject fields =
      ((fields.get? "text").bind Json.str?).elim
        (((fields.get? "raw").bind Json.items?).elim "" listHtml) escape := by
  unfold formatObject
  cases fields.get? "text" with
  | none =>
    cases fields.get? "raw" with
    | none => rfl
    | some raw => cases raw <;> rfl
  | some text =>
    cases text with
    | str s => rfl
    | _ =>
      cases fields.get? "raw" with
      | none => rfl
      | some raw => cases raw <;> rfl

/-- What is put in the place of `path` when it names `value`. -/
def format (value : Option Json) (path : String) : String :=
  match value with
  | none => ""
  | some value =>
    match safe? value with
    | some markup => markup
    | none =>
      match value with
      | .null => ""
      | .bool b => if b then "true" else ""
      | .num n => escape n.text
      | .str s => escape s
      | .arr items => formatList items path
      | .obj fields => formatObject fields

@[simp] theorem holds_none : holds none = false := rfl

@[simp] theorem format_none (path : String) : format none path = "" := rfl

/-- Finished markup is put in as it is. -/
@[simp] theorem format_safe (markup path : String) : format (some (safe markup)) path = markup := by
  simp [format]

end Vitae.Html
