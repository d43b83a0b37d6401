import Vitae.Html.Escape
import Vitae.Json.Basic
import Vitae.Text.Parts
/-!
# Work history and education as markup

An entry of a work history or of an education becomes a block: a heading, lines beneath it, and
points in a list. Parts with no text are left out, and every text is escaped as it is written, so
the only markup of a block is its own.
-/

namespace Vitae.Html

/-! ### Texts of an entry -/

/-- The text of a value that can stand in a list. -/
def scalarText? : Json → Option String
  | .str s => some s
  | .num n => some n.text
  | .bool true => some "true"
  | .bool false => some "false"
  | _ => none

/-- The texts of a list: trimmed, and without the empty ones. -/
def listTexts (items : List Json) : List String := Text.present (items.filterMap scalarText?)

/-- The trimmed string under a key; empty when there is none. -/
def fieldText (entry : Json.Fields) (key : String) : String :=
  Text.trimmed (((entry.get? key).bind Json.str?).getD "")

/-- The texts of the list under a key; none when there is no list. -/
def fieldTexts (entry : Json.Fields) (key : String) : List String :=
  match (entry.get? key).bind Json.items? with
  | some items => listTexts items
  | none => []

/-! ### Blocks -/

/-- What an entry becomes on the page. -/
structure Block where
  /-- The class of the block beside the one that all blocks share. -/
  kind : String
  /-- The heading; empty for none. -/
  heading : String
  /-- The lines beneath the heading; empty ones are left out. -/
  lines : List String
  /-- The points of the list; no list without points. -/
  points : List String
  deriving Repr, DecidableEq

/-- The block of an entry of a work history. -/
def workBlock (entry : Json.Fields) : Block where
  kind := "work-item"
  heading := Text.joinPresent " - " [fieldText entry "roleTitle", fieldText entry "companyTitle"]
  lines :=
    [Text.joinPresent " – " [fieldText entry "startDate", fieldText entry "endDate"],
      Text.joinPresent " | " [fieldText entry "location", fieldText entry "employmentType"]]
  points := fieldTexts entry "bullets"

/-- The line that names courses; empty when there are none. -/
def courseLine (courses : List String) : String :=
  if courses.isEmpty then "" else "Coursework: " ++ ", ".intercalate courses

/-- The block of an entry of an education. -/
def educationBlock (entry : Json.Fields) : Block where
  kind := "education-item"
  heading :=
    Text.joinPresent " | "
      [fieldText entry "institution",
        Text.joinPresent " - " [fieldText entry "degree", fieldText entry "field"]]
  lines := [fieldText entry "date", courseLine (fieldTexts entry "coursework")]
  points := []

/-- A text between an opening and a closing piece of markup; nothing for an empty text. -/
def between (opening closing text : String) : String :=
  if text = "" then "" else opening ++ escape text ++ closing

/-- The markup of a list of points; nothing for no points. -/
def pointList (points : List String) : String :=
  if points.isEmpty then ""
  else
    "<ul>" ++ String.join (points.map fun point => "<li>" ++ escape point ++ "</li>") ++ "</ul>"

/-- The markup of a block. -/
def Block.html (block : Block) : String :=
  "<div class=\"resume-item " ++ block.kind ++ "\">" ++
    between "<div><strong>" "</strong></div>" block.heading ++
    String.join (block.lines.map (between "<div class=\"meta\">" "</div>")) ++
    pointList block.points ++
    "</div>"

/-- The markup of a list of entries; what is no object is left out. -/
def blocksHtml (block : Json.Fields → Block) (items : List Json) : String :=
  String.join ((items.filterMap Json.fields?).map fun entry => (block entry).html)

/-- The markup of a work history. -/
def workHtml (items : List Json) : String := blocksHtml workBlock items

/-- The markup of an education. -/
def educationHtml (items : List Json) : String := blocksHtml educationBlock items

end Vitae.Html
