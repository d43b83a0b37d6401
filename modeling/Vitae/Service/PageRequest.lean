import Vitae.Json.Reader
/-!
# Requests for a page

A request for a page is written as an object with the members `template`, `resume` and `normalize`,
or as an array of these three in this order, of which the last ones may be missing. Members of other
names are stepped over. A text is read from the left, and the first thing wrong in it decides
whether it is malformed or of the wrong shape; what follows the value is not looked at.
-/

namespace Vitae.Service

open Json (Lexeme)

/-- A request for a page. -/
structure PageRequest where
  template : String := ""
  /-- The payload. -/
  resume : Json := .null
  /-- Whether the payload is brought into canonical form first. -/
  normalize : Bool := true

/-- What is wrong with the text of a request. -/
inductive BodyFault where
  /-- It is no JSON text. -/
  | malformed
  /-- It is a JSON text of the wrong shape. -/
  | misshapen
  deriving Repr, DecidableEq

/-- A member of a request. -/
inductive Member where
  | template
  /-- The payload. -/
  | resume
  | normalize
  deriving Repr, DecidableEq

/-- The members in the order of the array form. -/
def Member.all : List Member := [.template, .resume, .normalize]

/-- The name of a member. -/
def Member.name : Member → String
  | .template => "template"
  | .resume => "resume"
  | .normalize => "normalize"

/-- The member with a name. -/
def Member.ofName? (name : String) : Option Member := Member.all.find? (·.name == name)

/-- The fault of a value that begins with this lexeme where it is of the wrong kind. A scalar is
read to its end first, so one that denotes no value is malformed; a container is judged by its first
character. -/
def faultOf : Lexeme → BodyFault
  | .null | .bool _ | .number (some _) | .string (some _) | .openBracket | .openBrace => .misshapen
  | _ => .malformed

/-- The members read so far. -/
structure Draft where
  template : Option String := none
  /-- The payload. -/
  resume : Option Json := none
  normalize : Option Bool := none

namespace Draft

/-- Whether a member was read already. -/
def has (draft : Draft) : Member → Bool
  | .template => draft.template.isSome
  | .resume => draft.resume.isSome
  | .normalize => draft.normalize.isSome

/-- The request, with defaults for what is missing. -/
def request (draft : Draft) : PageRequest :=
  let defaults : PageRequest := {}
  ⟨draft.template.getD defaults.template, draft.resume.getD defaults.resume,
    draft.normalize.getD defaults.normalize⟩

/-- How many containers of a payload may stand open at a time: the request itself is one. -/
def payloadDepth : Nat := Json.maxDepth - 1

/-- Reads the value of a member, which begins with the lexeme `first` and goes on in `s`. -/
def read (draft : Draft) (member : Member) (first : Lexeme) (s : List Char) :
    Except BodyFault (Draft × Json.Rest s.length) :=
  match member, first with
  | .template, .string (some text) =>
    .ok ({ draft with template := some text }, .all s)
  | .template, _ => .error (faultOf first)
  | .normalize, .bool b => .ok ({ draft with normalize := some b }, .all s)
  | .normalize, _ => .error (faultOf first)
  | .resume, _ =>
    match Json.readValue? payloadDepth first s with
    | some found =>
      .ok ({ draft with resume := some found.value }, found.rest)
    | none => .error .malformed

/-- Reads the value after the name of a member, or steps over it where the name is not known. -/
def readNamed (draft : Draft) (known : Option Member) (first : Lexeme) (s : List Char) :
    Except BodyFault (Draft × Json.Rest s.length) :=
  match known with
  | some member => draft.read member first s
  | none =>
    match Json.skip? first s with
    | some r => .ok (draft, r)
    | none => .error .malformed

/-- Reads the members of an object, the next of which begins with the lexeme `first`. A member that
was read already is refused by its name. -/
def readMembers (draft : Draft) (first : Lexeme) (s : List Char) : Except BodyFault Draft :=
  match first with
  | .string (some name) =>
    let known := Member.ofName? name
    if known.any draft.has then .error .misshapen
    else
      match h : Json.afterName? s with
      | none => .error .malformed
      | some (l, t) =>
        match draft.readNamed known l t with
        | .error fault => .error fault
        | .ok (draft, ⟨r, hr⟩) =>
          match h2 : Lexeme.next? r with
          | some (.comma, u) =>
            match h3 : Lexeme.next? u with
            | none => .error .malformed
            | some (l2, v) =>
              have _shorter : v.length < s.length :=
                Nat.lt_trans (Json.length_lt_of_next? h3)
                  (Nat.lt_trans (Json.length_lt_of_next? h2)
                    (Nat.lt_of_le_of_lt hr (Json.length_lt_of_afterName? h)))
              draft.readMembers l2 v
          | some (.closeBrace, _) => .ok draft
          | _ => .error .malformed
  | _ => .error .malformed
termination_by s.length

/-- Reads the items of an array as these members, the first of which begins with the lexeme
`first`. -/
def readItems (draft : Draft) (members : List Member) (first : Lexeme) (s : List Char) :
    Except BodyFault Draft :=
  match members with
  | [] => .error .malformed
  | member :: others =>
    match draft.read member first s with
    | .error fault => .error fault
    | .ok (draft, ⟨r, _⟩) =>
      match Lexeme.next? r with
      | some (.comma, u) =>
        match Lexeme.next? u with
        | some (l, v) => draft.readItems others l v
        | none => .error .malformed
      | some (.closeBracket, _) => .ok draft
      | _ => .error .malformed

end Draft

/-- Reads the text of a request. -/
def PageRequest.read (s : List Char) : Except BodyFault PageRequest :=
  match Lexeme.next? s with
  | none => .error .malformed
  | some (.openBrace, r) =>
    match Lexeme.next? r with
    | none => .error .malformed
    | some (.closeBrace, _) => .ok {}
    | some (l, t) => (Draft.readMembers {} l t).map (·.request)
  | some (.openBracket, r) =>
    match Lexeme.next? r with
    | none => .error .malformed
    | some (.closeBracket, _) => .ok {}
    | some (l, t) => (Draft.readItems {} Member.all l t).map (·.request)
  | some (first, _) => .error (faultOf first)

end Vitae.Service
