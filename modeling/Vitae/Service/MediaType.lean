/-!
# Media types

The type of a request's content is written `type/subtype`, where the subtype may end in a suffix
after its last `+` and parameters may follow after a semicolon. Case does not matter. `isJson` says
whether a text names JSON content: the type is `application`, and the subtype or its suffix is
`json`.
-/

namespace Vitae.Service

/-- Whether a character may stand in a token. -/
def isTokenChar (c : Char) : Bool :=
  c.isAlphanum ||
    c ∈ ['!', '#', '$', '%', '&', '\x27', '*', '+', '-', '.', '^', '_', '\x60', '|', '~']

/-! ### Parameters -/

/-- Where the reader of parameters stands. -/
inductive ParameterPlace where
  /-- Where a parameter may begin. -/
  | gap
  | name
  /-- After the equals sign. -/
  | valueStart
  /-- Inside a value that is a token. -/
  | token
  /-- After the opening quote. -/
  | quoteStart
  /-- Inside a quoted value, which has a character at least. -/
  | quoted
  /-- After the closing quote. -/
  | closed
  deriving Repr, DecidableEq

namespace ParameterPlace

/-- Whether a character may stand in a quoted value. -/
def isQuotable (c : Char) : Bool := 0x20 ≤ c.toNat && c.toNat < 0x7F

/-- The place after one more character, if it may stand there. -/
def next? (place : ParameterPlace) (c : Char) : Option ParameterPlace :=
  match place with
  | gap => if c = ' ' then some gap else if isTokenChar c then some name else none
  | name => if c = '=' then some valueStart else if isTokenChar c then some name else none
  | valueStart =>
    if c = '\x22' then some quoteStart else if isTokenChar c then some token else none
  | token => if c = ';' then some gap else if isTokenChar c then some token else none
  | quoteStart => if isQuotable c then some quoted else none
  | quoted => if c = '\x22' then some closed else if isQuotable c then some quoted else none
  | closed => if c = ';' then some gap else if c = ' ' then some closed else none

/-- Whether the parameters may end here. -/
def mayEnd : ParameterPlace → Bool
  | gap | valueStart | token | closed => true
  | name | quoteStart | quoted => false

end ParameterPlace

/-- Whether a text is a list of parameters. -/
def areParameters (s : List Char) : Bool :=
  match s.foldlM ParameterPlace.next? .gap with
  | some place => place.mayEnd
  | none => false

/-! ### Media types -/

/-- A media type, in small letters. -/
structure MediaType where
  type : List Char
  /-- The subtype before its suffix. -/
  subtype : List Char
  suffix : Option (List Char)
  deriving Repr, DecidableEq

namespace MediaType

/-- Divides a subtype before its last `+`. One at the very front begins no suffix. -/
def splitSuffix (s : List Char) : List Char × Option (List Char) :=
  let suffix := (s.reverse.takeWhile (· ≠ '+')).reverse
  let before := s.take (s.length - suffix.length - 1)
  if before.isEmpty then (s, none) else (before, some suffix)

/-- The media type that a text names. -/
def read? (s : List Char) : Option MediaType :=
  let s := s.map Char.toLower
  let type := s.takeWhile isTokenChar
  match s.dropWhile isTokenChar with
  | '/' :: r =>
    let (subtype, suffix) := splitSuffix (r.takeWhile isTokenChar)
    let found : MediaType := ⟨type, subtype, suffix⟩
    if type.isEmpty then none
    else
      match r.dropWhile isTokenChar with
      | [] => some found
      | ';' :: parameters =>
        if subtype.isEmpty || !areParameters parameters then none else some found
      | _ => none
  | _ => none

/-- Whether content of this type is JSON. -/
def isJson (m : MediaType) : Bool :=
  let json := "json".toList
  m.type == "application".toList && (m.subtype == json || m.suffix == some json)

end MediaType

/-- Whether a content type names JSON. -/
def namesJson (contentType : String) : Bool :=
  match MediaType.read? contentType.toList with
  | some m => m.isJson
  | none => false

end Vitae.Service
