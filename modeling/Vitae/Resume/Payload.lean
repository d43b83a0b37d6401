import Vitae.Resume.Basic
import Vitae.Resume.Spelling
import Vitae.Text.Parts
/-!
# Payloads in canonical form

`normalize` reads any JSON value as a résumé. Each field is sought under its spellings in order. A
text is taken from the first spelling that gives a text that is not empty, a list from the first
that gives a list that is not empty; a summary, skills and a block within a payload are taken from
the first spelling with a value of the kind they ask for. Whatever has another shape counts as
missing.
-/

namespace Vitae

namespace Payload

/-! ### Values as texts and lists -/

/-- A value as a text: a trimmed string, or the text of a number. -/
def scalar : Json → String
  | .str s => Text.trimmed s
  | .num n => n.text
  | _ => ""

/-- A value as a list of texts: the texts of an array, or the pieces of a string. Every entry is
trimmed and not empty. -/
def texts (separator : Char) : Json → List String
  | .arr items => Text.present (items.map scalar)
  | .str s => Text.present (Text.pieces separator s)
  | _ => []

/-! ### Fields under several spellings -/

/-- The values under the spellings of a field, in the order of the spellings. -/
def values (fields : Json.Fields) (spellings : List String) : List Json :=
  spellings.filterMap fields.get?

/-- The first text that is not empty. -/
def text (fields : Json.Fields) (spellings : List String) : String :=
  (((values fields spellings).map scalar).find? (· ≠ "")).getD ""

/-- The first list that is not empty. -/
def list (fields : Json.Fields) (spellings : List String) (separator : Char) : List String :=
  (((values fields spellings).map (texts separator)).find? (· ≠ [])).getD []

/-- The first value that is not `null`. -/
def first? (fields : Json.Fields) (spellings : List String) : Option Json :=
  (values fields spellings).find? (!·.isNull)

/-- The first object. -/
def object? (fields : Json.Fields) (spellings : List String) : Option Json.Fields :=
  (values fields spellings).findSome? Json.fields?

/-- The objects of the first array that is not empty. -/
def objects (fields : Json.Fields) (spellings : List String) : List Json.Fields :=
  let arrays := (values fields spellings).filterMap Json.items?
  ((arrays.find? (!·.isEmpty)).getD []).filterMap Json.fields?

/-! ### Blocks of a payload -/

/-- The text of a field of a contact: from the contact if it has one, else from the profile. -/
def contactText (profile : Json.Fields) (spellings : List String) : String :=
  match object? profile Spelling.contact with
  | none => text profile spellings
  | some contact =>
    let nested := text contact spellings
    if nested = "" then text profile spellings else nested

/-- The profile of a payload. -/
def profile (fields : Json.Fields) : Profile where
  name := text fields Spelling.name
  headline := text fields Spelling.headline
  contact :=
    { location := contactText fields Spelling.location
      email := contactText fields Spelling.email
      phone := contactText fields Spelling.phone
      linkedin := contactText fields Spelling.linkedin }

/-- The summary of a payload, as it is or as the text of an object. -/
def summary : Json → String
  | .obj fields => (Json.Fields.get? fields Spelling.summaryText).elim "" scalar
  | value => scalar value

/-- The skills of a payload, as they are or as the raw list of an object. -/
def skills : Json → List String
  | .obj fields => (Json.Fields.get? fields Spelling.skillsRaw).elim [] (texts ',')
  | value => texts ',' value

/-- One position of a payload. -/
def workItem (fields : Json.Fields) : WorkItem where
  company := text fields Spelling.company
  role := text fields Spelling.role
  employmentType := text fields Spelling.employmentType
  location := text fields Spelling.location
  startDate := text fields Spelling.startDate
  endDate := text fields Spelling.endDate
  bullets := list fields Spelling.bullets '\n'

/-- One course of study of a payload. -/
def educationItem (fields : Json.Fields) : EducationItem where
  institution := text fields Spelling.institution
  degree := text fields Spelling.degree
  field := text fields Spelling.field
  date := text fields Spelling.date
  coursework := list fields Spelling.coursework ','

/-- The résumé of a payload that is an object. -/
def resume (fields : Json.Fields) : Resume where
  profile := (object? fields Spelling.profile).elim {} profile
  summary := (first? fields Spelling.summary).elim "" summary
  skills := (first? fields Spelling.skills).elim [] skills
  work := (objects fields Spelling.work).map workItem
  education := (objects fields Spelling.education).map educationItem

end Payload

/-- Any payload as a résumé; one that is no object as the empty résumé. -/
def normalize : Json → Resume
  | .obj fields => Payload.resume fields
  | _ => {}

end Vitae
