import Vitae.Json.Lexeme
/-!
# Reading JSON text

`Json.read?` reads the value at the front of a text and leaves what follows it. Containers nest up
to a given depth. `Json.skip?` steps over a value without keeping it: it goes to any depth, and it
asks only for the grammar, so halves of surrogate pairs and numbers beyond every double pass.

Both work from the first lexeme of a value on and return the text left over together with the fact
that it is no longer than a bound they are given, by which the loops over items and members end.
-/

namespace Vitae.Json

/-- What is left of a text after reading, no longer than `bound`. -/
abbrev Rest (bound : Nat) := { r : List Char // r.length ≤ bound }

/-- All of a text is left. -/
def Rest.all (s : List Char) : Rest s.length := ⟨s, Nat.le_refl _⟩

/-- A value read off the front of a text, with what is left. -/
structure Reading (bound : Nat) where
  value : Json
  /-- What follows it. -/
  rest : Rest bound

/-- The text of the value after the name of a member: a colon, then the value's first lexeme. -/
def afterName? (s : List Char) : Option (Lexeme × List Char) :=
  match Lexeme.next? s with
  | some (.colon, r) => Lexeme.next? r
  | _ => none

theorem length_lt_of_afterName? {s r : List Char} {l : Lexeme} (h : afterName? s = some (l, r)) :
    r.length < s.length := by
  unfold afterName? at h
  split at h
  · rename_i t ht
    exact Nat.lt_trans (length_lt_of_next? h) (length_lt_of_next? ht)
  · simp at h

mutual

/-- The value that begins with the lexeme `first` and goes on in `s`. At most `depth` containers
stand open at a time. -/
def readValue? (depth : Nat) (first : Lexeme) (s : List Char) : Option (Reading s.length) :=
  match first, depth with
  | .null, _ => some ⟨.null, .all s⟩
  | .bool b, _ => some ⟨.bool b, .all s⟩
  | .number n, _ => n.map fun n => ⟨.num n, .all s⟩
  | .string t, _ => t.map fun t => ⟨.str t, .all s⟩
  | .openBracket, depth + 1 =>
    match h : Lexeme.next? s with
    | none => none
    | some (.closeBracket, r) => some ⟨.arr [], r, Nat.le_of_lt (length_lt_of_next? h)⟩
    | some (l, r) => readItems? depth [] l r (Nat.le_of_lt (length_lt_of_next? h))
  | .openBrace, depth + 1 =>
    match h : Lexeme.next? s with
    | none => none
    | some (.closeBrace, r) => some ⟨.obj [], r, Nat.le_of_lt (length_lt_of_next? h)⟩
    | some (l, r) => readMembers? depth [] l r (Nat.le_of_lt (length_lt_of_next? h))
  | _, _ => none
termination_by (s.length, 0)
decreasing_by
  all_goals
    have := length_lt_of_next? h
    omega

/-- The array whose items so far are `done`, latest first, and whose next item begins with the
lexeme `first`. -/
def readItems? {bound : Nat} (depth : Nat) (done : List Json) (first : Lexeme) (s : List Char)
    (hs : s.length ≤ bound) : Option (Reading bound) :=
  match readValue? depth first s with
  | none => none
  | some item =>
    match h : Lexeme.next? item.rest.val with
    | some (.comma, r) =>
      match h2 : Lexeme.next? r with
      | none => none
      | some (l, t) =>
        have shorter : t.length < s.length :=
          Nat.lt_of_lt_of_le (Nat.lt_trans (length_lt_of_next? h2) (length_lt_of_next? h))
            item.rest.property
        readItems? depth (item.value :: done) l t (Nat.le_trans (Nat.le_of_lt shorter) hs)
    | some (.closeBracket, r) =>
      have shorter : r.length < s.length :=
        Nat.lt_of_lt_of_le (length_lt_of_next? h) item.rest.property
      some ⟨.arr (item.value :: done).reverse, r, Nat.le_trans (Nat.le_of_lt shorter) hs⟩
    | _ => none
termination_by (s.length, 1)

/-- The object whose fields so far are `done` and whose next member begins with the lexeme
`first`, which has to be a string. -/
def readMembers? {bound : Nat} (depth : Nat) (done : Fields) (first : Lexeme) (s : List Char)
    (hs : s.length ≤ bound) : Option (Reading bound) :=
  match first with
  | .string (some name) =>
    match h : afterName? s with
    | none => none
    | some (l, t) =>
      match readValue? depth l t with
      | none => none
      | some item =>
        have shorter : item.rest.val.length < s.length :=
          Nat.lt_of_le_of_lt item.rest.property (length_lt_of_afterName? h)
        match h2 : Lexeme.next? item.rest.val with
        | some (.comma, r) =>
          match h3 : Lexeme.next? r with
          | none => none
          | some (l2, t2) =>
            have shortest : t2.length < s.length :=
              Nat.lt_trans (Nat.lt_trans (length_lt_of_next? h3) (length_lt_of_next? h2)) shorter
            readMembers? depth (done.insert name item.value) l2 t2
              (Nat.le_trans (Nat.le_of_lt shortest) hs)
        | some (.closeBrace, r) =>
          have shortest : r.length < s.length := Nat.lt_trans (length_lt_of_next? h2) shorter
          some ⟨.obj (done.insert name item.value), r, Nat.le_trans (Nat.le_of_lt shortest) hs⟩
        | _ => none
  | _ => none
termination_by (s.length, 1)
decreasing_by
  · have := length_lt_of_afterName? h
    omega
  · omega

end

/-- How many containers of a text may stand open at a time. -/
def maxDepth : Nat := 127

/-- The value at the front of a text, and what follows it. -/
def read? (s : List Char) : Option (Json × List Char) :=
  match Lexeme.next? s with
  | none => none
  | some (first, r) => (readValue? maxDepth first r).map fun found => (found.value, found.rest.val)

/-- The value at the front of a string. -/
def ofText? (text : String) : Option Json := (read? text.toList).map (·.1)

/-! ### Stepping over a value -/

/-- A container that stands open. -/
inductive Container where
  | array
  | object
  deriving Repr, DecidableEq

/-- The name of a member, the colon, and the first lexeme of its value. -/
def memberStart? (first : Lexeme) (s : List Char) : Option (Lexeme × List Char) :=
  match first with
  | .string _ => afterName? s
  | _ => none

theorem length_lt_of_memberStart? {s r : List Char} {first l : Lexeme}
    (h : memberStart? first s = some (l, r)) : r.length < s.length := by
  unfold memberStart? at h
  split at h
  · exact length_lt_of_afterName? h
  · simp at h

mutual

/-- Steps over the value that begins with the lexeme `first` and goes on in `s`, and then over the
rest of the containers `opened`, innermost first. The text left over is no longer than `bound`. -/
def skipValue? {bound : Nat} (opened : List Container) (first : Lexeme) (s : List Char)
    (hs : s.length ≤ bound) : Option (Rest bound) :=
  match first with
  | .null | .bool _ | .number _ | .string _ => skipRest? opened s hs
  | .openBracket =>
    match h : Lexeme.next? s with
    | none => none
    | some (.closeBracket, r) =>
      skipRest? opened r (Nat.le_trans (Nat.le_of_lt (length_lt_of_next? h)) hs)
    | some (l, r) =>
      skipValue? (.array :: opened) l r (Nat.le_trans (Nat.le_of_lt (length_lt_of_next? h)) hs)
  | .openBrace =>
    match h : Lexeme.next? s with
    | none => none
    | some (.closeBrace, r) =>
      skipRest? opened r (Nat.le_trans (Nat.le_of_lt (length_lt_of_next? h)) hs)
    | some (l, r) =>
      match h2 : memberStart? l r with
      | none => none
      | some (l2, t) =>
        have shorter : t.length < s.length :=
          Nat.lt_trans (length_lt_of_memberStart? h2) (length_lt_of_next? h)
        skipValue? (.object :: opened) l2 t (Nat.le_trans (Nat.le_of_lt shorter) hs)
  | _ => none
termination_by (s.length, 1)
decreasing_by
  all_goals
    try have := length_lt_of_next? h
    omega

/-- Steps over what is left of the containers `opened` after one of their values. -/
def skipRest? {bound : Nat} (opened : List Container) (s : List Char) (hs : s.length ≤ bound) :
    Option (Rest bound) :=
  match opened with
  | [] => some ⟨s, hs⟩
  | .array :: outer =>
    match h : Lexeme.next? s with
    | some (.comma, r) =>
      match h2 : Lexeme.next? r with
      | none => none
      | some (l, t) =>
        have shorter : t.length < s.length :=
          Nat.lt_trans (length_lt_of_next? h2) (length_lt_of_next? h)
        skipValue? (.array :: outer) l t (Nat.le_trans (Nat.le_of_lt shorter) hs)
    | some (.closeBracket, r) =>
      skipRest? outer r (Nat.le_trans (Nat.le_of_lt (length_lt_of_next? h)) hs)
    | _ => none
  | .object :: outer =>
    match h : Lexeme.next? s with
    | some (.comma, r) =>
      match h2 : Lexeme.next? r with
      | none => none
      | some (l, t) =>
        match h3 : memberStart? l t with
        | none => none
        | some (l2, t2) =>
          have shorter : t2.length < s.length :=
            Nat.lt_trans (length_lt_of_memberStart? h3)
              (Nat.lt_trans (length_lt_of_next? h2) (length_lt_of_next? h))
          skipValue? (.object :: outer) l2 t2 (Nat.le_trans (Nat.le_of_lt shorter) hs)
    | some (.closeBrace, r) =>
      skipRest? outer r (Nat.le_trans (Nat.le_of_lt (length_lt_of_next? h)) hs)
    | _ => none
termination_by (s.length, 0)
decreasing_by
  all_goals
    try have := length_lt_of_next? h
    omega

end

/-- What follows the value that begins with the lexeme `first` and goes on in `s`. -/
def skip? (first : Lexeme) (s : List Char) : Option (Rest s.length) :=
  skipValue? [] first s (Nat.le_refl _)

end Vitae.Json
