import Vitae.Number.Basic
/-!
# JSON values

Objects are lists of fields. `Json.Fields.insert` keeps them in the order of their names and lets a
later value replace an earlier one of the same name, so an object built by it holds each name once
and the first match of `Json.Fields.get?` is the only one. `get?_insert` says what a look-up finds
after an insertion, and `get?_ofList` what it finds in an object given field by field.
-/

namespace Vitae

/-- A JSON value. -/
inductive Json where
  | null
  /-- A truth value. -/
  | bool (value : Bool)
  | num (value : Number)
  | str (value : String)
  | arr (items : List Json)
  | obj (fields : List (String × Json))
  deriving Inhabited

namespace Json

/-- The fields of an object. -/
abbrev Fields := List (String × Json)

namespace Fields

/-- The value of a name. -/
def get? : Fields → String → Option Json
  | [], _ => none
  | (other, value) :: rest, name => if name = other then some value else get? rest name

/-- Sets the value of a name and keeps the order of the names. -/
def insert (name : String) (value : Json) : Fields → Fields
  | [] => [(name, value)]
  | (other, kept) :: rest =>
    if name = other then (name, value) :: rest
    else if name < other then (name, value) :: (other, kept) :: rest
    else (other, kept) :: insert name value rest

/-- The fields of an object given one after another: the last value of a name counts. -/
def ofList (entries : List (String × Json)) : Fields :=
  entries.foldl (fun fields entry => fields.insert entry.1 entry.2) []

@[simp] theorem get?_nil (name : String) : get? [] name = none := rfl

theorem get?_cons (other name : String) (value : Json) (rest : Fields) :
    get? ((other, value) :: rest) name = if name = other then some value else get? rest name := rfl

theorem get?_append (fields more : Fields) (name : String) :
    get? (fields ++ more) name = (get? fields name).or (get? more name) := by
  induction fields with
  | nil => rfl
  | cons field rest ih => grind [get?]

/-- The inserted name has the inserted value, and every other name keeps its own. -/
theorem get?_insert (fields : Fields) (name other : String) (value : Json) :
    (fields.insert name value).get? other =
      if other = name then some value else fields.get? other := by
  induction fields with
  | nil => simp [insert, get?_cons]
  | cons field rest ih =>
    unfold insert
    split
    · grind [get?_cons]
    · split <;> grind [get?_cons]

/-- The last value given for a name is the one it has. -/
theorem get?_ofList (entries : List (String × Json)) (name : String) :
    (ofList entries).get? name = get? entries.reverse name := by
  suffices h : ∀ fields : Fields,
      (entries.foldl (fun fields entry => fields.insert entry.1 entry.2) fields).get? name =
        (get? entries.reverse name).or (fields.get? name) by
    simpa [ofList] using h []
  induction entries with
  | nil => intro fields; rfl
  | cons entry rest ih =>
    intro fields
    rw [List.foldl_cons, ih, get?_insert, List.reverse_cons, get?_append]
    grind [get?]

theorem mem_of_get? {fields : Fields} {name : String} {value : Json}
    (h : fields.get? name = some value) : (name, value) ∈ fields := by
  induction fields with
  | nil => simp at h
  | cons field rest ih =>
      obtain ⟨other, kept⟩ := field
      rw [get?_cons] at h
      split at h
      · rename_i hname
        obtain rfl := Option.some.inj h
        exact hname ▸ List.mem_cons_self
      · exact List.mem_cons_of_mem _ (ih h)

theorem mem_insert {fields : Fields} {name : String} {value : Json}
    {field : String × Json} (h : field ∈ fields.insert name value) :
    field = (name, value) ∨ field ∈ fields := by
  induction fields with
  | nil => simpa [insert] using h
  | cons first rest ih =>
      unfold insert at h
      split at h
      · rcases List.mem_cons.mp h with h | h
        · exact .inl h
        · exact .inr (List.mem_cons_of_mem _ h)
      · split at h
        · exact (List.mem_cons.mp h).imp_right id
        · rcases List.mem_cons.mp h with rfl | h
          · exact .inr List.mem_cons_self
          · exact (ih h).imp_right (List.mem_cons_of_mem _)

/-- An object has no fields but those it was given. -/
theorem mem_of_mem_ofList {entries : List (String × Json)} {field : String × Json}
    (h : field ∈ ofList entries) : field ∈ entries := by
  suffices hfold : ∀ fields : Fields,
      field ∈ entries.foldl (fun fields entry => fields.insert entry.1 entry.2) fields →
        field ∈ entries ∨ field ∈ fields by
    simpa using hfold [] h
  clear h
  induction entries with
  | nil => exact fun _ h => .inr h
  | cons entry rest ih =>
      intro fields h
      rcases ih _ h with h | h
      · exact .inl (List.mem_cons_of_mem _ h)
      · rcases mem_insert h with rfl | h
        · exact .inl List.mem_cons_self
        · exact .inr h

end Fields

/-- The object with these fields. -/
def ofFields (entries : List (String × Json)) : Json := .obj (Fields.ofList entries)

/-- The array of these strings. -/
def ofStrings (strings : List String) : Json := .arr (strings.map .str)

/-- The fields, if the value is an object. -/
def fields? : Json → Option Fields
  | .obj fields => some fields
  | _ => none

/-- The string, if the value is one. -/
def str? : Json → Option String
  | .str s => some s
  | _ => none

/-- The items, if the value is an array. -/
def items? : Json → Option (List Json)
  | .arr items => some items
  | _ => none

/-- Whether the value is `null`. -/
def isNull : Json → Bool
  | .null => true
  | _ => false

end Json

end Vitae
