/-!
# Request targets

What a request asks for is written as a path, or as an absolute address: a scheme, a host, and the
path behind them. Either may end in a query and a fragment. `targetPath` is the path, without them.
-/

namespace Vitae.Service

/-- Whether a character may stand in the name of a scheme. -/
def isSchemeChar (c : Char) : Bool := c.isAlphanum || c ∈ ['+', '-', '.', '~']

/-- What follows the scheme of an absolute address. -/
def afterScheme? (s : List Char) : Option (List Char) :=
  match s.dropWhile isSchemeChar with
  | ':' :: '/' :: '/' :: r => some r
  | _ => none

/-- Whether a query or a fragment begins at a character. -/
def endsPath (c : Char) : Bool := c = '?' || c = '#'

/-- What stands before the query and the fragment. -/
def beforeQuery (s : List Char) : List Char := s.takeWhile (!endsPath ·)

/-- What follows the host at the front of a text. -/
def afterHost (s : List Char) : List Char := s.dropWhile fun c => c ≠ '/' && !endsPath c

/-- The path of a target. One that is neither a path nor an absolute address, such as `*` or a bare
host, stands as it is: it names nothing here, since every path begins with a slash. -/
def targetPath (s : List Char) : List Char :=
  match afterScheme? s with
  | some r => beforeQuery (afterHost r)
  | none => beforeQuery s

end Vitae.Service
