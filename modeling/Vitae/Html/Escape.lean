/-!
# Escaping text for HTML

Five characters are written as entities and every other character as itself.
-/

namespace Vitae.Html

/-- The entity that stands for a character, if the character may not stand for itself. -/
def entity? : Char → Option String
  | '&' => some "&amp;"
  | '<' => some "&lt;"
  | '>' => some "&gt;"
  | '\x22' => some "&quot;"
  | '\x27' => some "&#39;"
  | _ => none

/-- How one character is written. -/
def escapeChar (c : Char) : List Char :=
  match entity? c with
  | some entity => entity.toList
  | none => [c]

/-- Writes a text so that it can stand between tags and in quoted attributes. -/
def escape (s : String) : String := String.ofList (s.toList.flatMap escapeChar)

@[simp] theorem toList_escape (s : String) :
    (escape s).toList = s.toList.flatMap escapeChar := by
  simp [escape]

@[simp] theorem escape_empty : escape "" = "" := by simp [escape]

@[simp] theorem escape_append (s t : String) : escape (s ++ t) = escape s ++ escape t := by
  simp [escape]

end Vitae.Html
