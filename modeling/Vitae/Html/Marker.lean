import Vitae.Json.Basic
/-!
# Markup among the data

An object with a string under the key `__html` marks that string as finished markup, which is put
into a page as it is.
-/

namespace Vitae.Html

/-- The key of finished markup. -/
def markerKey : String := "__html"

/-- Marks a text as finished markup. -/
def safe (markup : String) : Json := .obj [(markerKey, .str markup)]

/-- The markup, if the value is marked as such. -/
def safe? : Json → Option String
  | .obj fields => (Json.Fields.get? fields markerKey).bind Json.str?
  | _ => none

@[simp] theorem safe?_safe (markup : String) : safe? (safe markup) = some markup := by
  simp [safe?, safe, Json.Fields.get?_cons, Json.str?]

end Vitae.Html
