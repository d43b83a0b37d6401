import Vitae.Json.Basic
import Vitae.Text.Numeral
/-!
# The context of a template

A template sees its data through a stack of frames, innermost first. A frame holds a record, whose
parts can be named by a path, or the plain value of a list's item, which only the path `.` reaches.

A path is looked up in one record at a time: the innermost record in which the whole path leads to a
value decides, and a value `null` is a value.
-/

namespace Vitae.Template

/-- One frame of a context. -/
inductive Frame where
  /-- A value whose parts have names. -/
  | record (value : Json)
  /-- A plain value, reached by the path `.` alone. -/
  | wrapped (value : Json)

/-- A context: its frames, innermost first. -/
abbrev Stack := List Frame

/-- The number of array positions that can be named: an index lies below it. -/
def indexBound : Nat := Nat.pow 2 64

/-- The part of a value with this name: a field of an object, or an item of an array by its
index. -/
def part? (value : Json) (name : List Char) : Option Json :=
  match value with
  | .obj fields => Json.Fields.get? fields (String.ofList name)
  | .arr items =>
    match Text.readNumeral indexBound name with
    | .ok i => items[i]?
    | .error _ => none
  | _ => none

theorem part?_arr (items : List Json) (name : List Char) :
    part? (.arr items) name =
      (Text.readNumeral indexBound name).toOption.bind fun i => items[i]? := by
  unfold part?
  cases Text.readNumeral indexBound name <;> rfl

/-- The value that a list of names leads to. -/
def follow? (value : Json) (names : List (List Char)) : Option Json :=
  names.foldlM part? value

/-- The names of a path, between its points. -/
def pathNames (path : String) : List (List Char) := path.toList.splitOn '.'

/-- Whether a value can be shown on its own. -/
def isPlain : Json → Bool
  | .str _ | .num _ | .bool _ => true
  | _ => false

namespace Frame

/-- The value of a plain frame. -/
def wrapped? : Frame → Option Json
  | .wrapped value => some value
  | .record _ => none

/-- The value of a record that is itself plain. -/
def plainRecord? : Frame → Option Json
  | .record value => if isPlain value then some value else none
  | .wrapped _ => none

/-- The value that a path leads to in this frame. -/
def lookup? (names : List (List Char)) : Frame → Option Json
  | .record value => follow? value names
  | .wrapped _ => none

end Frame

namespace Stack

/-- What the path `.` names: the innermost plain frame, or else the innermost record that is itself
a plain value. -/
def current? (stack : Stack) : Option Json :=
  (stack.findSome? Frame.wrapped?).or (stack.findSome? Frame.plainRecord?)

/-- What a path names, if anything. -/
def resolve? (stack : Stack) (path : String) : Option Json :=
  if path = "." then stack.current? else stack.findSome? (Frame.lookup? (pathNames path))

end Stack

end Vitae.Template
