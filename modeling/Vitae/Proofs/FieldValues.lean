import Mathlib.Data.List.Forall2
import Mathlib.Data.Option.Basic
import Vitae.Resume.Payload

/-!
# What a field is read from

A field of a résumé is read from the values that its spellings have in one object of a payload, in
the order of the spellings (`Payload.values`), and from nothing else. So two objects are read as the
same block if the values of each field can be put in pairs that are read alike: equal texts, lists
with the same entries, objects that are themselves read as the same block (`SameObject`), and arrays
of such objects (`SameItems`).

Two facts about the values of a field are all that comparisons of payloads come down to: a field
with a single spelling in use has just the value under it (`values_of_only`), and a change of the
value under one name shows in the fields that have it as a spelling, and nowhere else
(`forall₂_values_insert`).
-/

namespace Vitae.Payload

variable {fields fields' : Json.Fields} {spellings spellings' : List String}

/-! ### The values of a field -/

/-- Whether `key` is the only spelling of a field that is in use in an object, with this value. -/
structure Only (fields : Json.Fields) (spellings : List String) (key : String)
    (value : Json) : Prop where
  inUse : spellings.filter (fun other => (fields.get? other).isSome) = [key]
  get? : fields.get? key = some value

theorem values_of_only {key : String} {value : Json} (h : Only fields spellings key value) :
    values fields spellings = [value] := by
  have hfilter : values fields spellings =
      (spellings.filter fun other => (fields.get? other).isSome).filterMap fields.get? := by
    rw [values, List.filterMap_filter]
    refine List.filterMap_congr fun other _ => ?_
    cases fields.get? other <;> rfl
  rw [hfilter, h.inUse, List.filterMap_cons_some h.get?, List.filterMap_nil]

theorem forall₂_values {same : Json → Json → Prop}
    (h : ∀ key ∈ spellings, Option.Rel same (fields.get? key) (fields'.get? key)) :
    List.Forall₂ same (values fields spellings) (values fields' spellings) := by
  induction spellings with
  | nil => exact .nil
  | cons key rest ih =>
      have hrest := ih fun other hother => h other (List.mem_cons_of_mem _ hother)
      have hkey := h key List.mem_cons_self
      unfold values at hrest ⊢
      rw [List.filterMap_cons, List.filterMap_cons]
      generalize fields.get? key = value at hkey ⊢
      generalize fields'.get? key = value' at hkey ⊢
      cases hkey with
      | some hsame => exact .cons hsame hrest
      | none => exact hrest

/-- Two values under the same name are in a pair, if it is a spelling of the field, and so is every
other value with itself. -/
theorem forall₂_values_insert {same : Json → Json → Prop} (hrefl : ∀ value, same value value)
    {key : String} {value value' : Json} (h : key ∈ spellings → same value value')
    (fields : Json.Fields) :
    List.Forall₂ same (values (fields.insert key value) spellings)
      (values (fields.insert key value') spellings) := by
  refine forall₂_values fun other hother => ?_
  rw [Json.Fields.get?_insert, Json.Fields.get?_insert]
  split
  · rename_i heq
    exact .some (h (heq ▸ hother))
  · cases fields.get? other with
    | none => exact .none
    | some kept => exact .some (hrefl kept)

/-! ### Values that are read alike -/

/-- Whether two values are the same, or objects that are related. -/
inductive SameObject (same : Json.Fields → Json.Fields → Prop) : Json → Json → Prop where
  | same (value : Json) : SameObject same value value
  | obj {fields fields' : Json.Fields} (h : same fields fields') :
      SameObject same (.obj fields) (.obj fields')

/-- Whether two values are the same, or arrays of values that are, one by one, the same or objects
that are related. -/
inductive SameItems (same : Json.Fields → Json.Fields → Prop) : Json → Json → Prop where
  | same (value : Json) : SameItems same value value
  | arr {items items' : List Json} (h : List.Forall₂ (SameObject same) items items') :
      SameItems same (.arr items) (.arr items')

theorem text_congr (h : values fields spellings = values fields' spellings') :
    text fields spellings = text fields' spellings' := by
  rw [text, text, h]

theorem list_congr {separator : Char}
    (h : List.Forall₂ (fun value value' => texts separator value = texts separator value')
      (values fields spellings) (values fields' spellings')) :
    list fields spellings separator = list fields' spellings' separator := by
  have htexts : (values fields spellings).map (texts separator) =
      (values fields' spellings').map (texts separator) := by
    rw [← List.forall₂_eq_eq_eq, List.forall₂_map_left_iff, List.forall₂_map_right_iff]
    exact h
  rw [list, list, htexts]

variable {α : Type}

/-- The first chosen values are read alike if all pairs of values are chosen and read alike. -/
theorem map_find?_congr {chosen : Json → Bool} {read : Json → α} {found found' : List Json}
    (h : List.Forall₂ (fun value value' => chosen value = chosen value' ∧ read value = read value')
      found found') :
    (found.find? chosen).map read = (found'.find? chosen).map read := by
  induction h with
  | nil => rfl
  | cons hpair _ ih =>
      obtain ⟨hchosen, hread⟩ := hpair
      rw [List.find?_cons, List.find?_cons, ← hchosen]
      split
      · exact congrArg some hread
      · exact ih

theorem map_first?_congr {read : Json → α}
    (h : List.Forall₂ (fun value value' => value.isNull = value'.isNull ∧ read value = read value')
      (values fields spellings) (values fields' spellings')) :
    (first? fields spellings).map read = (first? fields' spellings').map read := by
  refine map_find?_congr (h.imp ?_)
  intro value value' hpair
  exact ⟨congrArg (!·) hpair.1, hpair.2⟩

variable {same : Json.Fields → Json.Fields → Prop} {read : Json.Fields → α}

theorem map_fields?_congr
    (hread : ∀ fields fields', same fields fields' → read fields = read fields')
    {value value' : Json} (h : SameObject same value value') :
    value.fields?.map read = value'.fields?.map read := by
  cases h with
  | same => rfl
  | obj h => exact congrArg some (hread _ _ h)

theorem map_object?_congr
    (hread : ∀ fields fields', same fields fields' → read fields = read fields')
    (h : List.Forall₂ (SameObject same) (values fields spellings) (values fields' spellings')) :
    (object? fields spellings).map read = (object? fields' spellings').map read := by
  unfold object?
  generalize values fields spellings = found at h ⊢
  generalize values fields' spellings' = found' at h ⊢
  induction h with
  | nil => rfl
  | cons hpair _ ih =>
      rw [List.findSome?_cons, List.findSome?_cons]
      cases hpair with
      | same value =>
          split
          · rfl
          · exact ih
      | obj hblock => exact congrArg some (hread _ _ hblock)

theorem map_filterMap_fields?_congr
    (hread : ∀ fields fields', same fields fields' → read fields = read fields')
    {items items' : List Json} (h : List.Forall₂ (SameObject same) items items') :
    (items.filterMap Json.fields?).map read = (items'.filterMap Json.fields?).map read := by
  rw [List.map_filterMap, List.map_filterMap]
  induction h with
  | nil => rfl
  | cons hpair _ ih =>
      rw [List.filterMap_cons, List.filterMap_cons, map_fields?_congr hread hpair, ih]

/-- Whether a value is an array with an item. -/
def holdsItems (value : Json) : Bool := value.items?.any (!·.isEmpty)

/-- The objects among the items of a value. -/
def itemFields (value : Json) : List Json.Fields := (value.items?.getD []).filterMap Json.fields?

theorem objects_eq (fields : Json.Fields) (spellings : List String) :
    objects fields spellings =
      ((values fields spellings).find? holdsItems).elim [] itemFields := by
  unfold objects
  dsimp only
  rw [List.find?_filterMap]
  show ((((values fields spellings).find? holdsItems).bind Json.items?).getD []).filterMap
    Json.fields? = _
  cases (values fields spellings).find? holdsItems <;> rfl

theorem map_objects_congr
    (hread : ∀ fields fields', same fields fields' → read fields = read fields')
    (h : List.Forall₂ (SameItems same) (values fields spellings) (values fields' spellings')) :
    (objects fields spellings).map read = (objects fields' spellings').map read := by
  have hitems (value value' : Json) (hpair : SameItems same value value') :
      holdsItems value = holdsItems value' ∧
        (itemFields value).map read = (itemFields value').map read := by
    cases hpair with
    | same => exact ⟨rfl, rfl⟩
    | arr hitems =>
        refine ⟨?_, map_filterMap_fields?_congr hread hitems⟩
        cases hitems with
        | nil => rfl
        | cons _ _ => rfl
  have hmap (fields : Json.Fields) (spellings : List String) :
      (objects fields spellings).map read =
        (((values fields spellings).find? holdsItems).map
          fun value => (itemFields value).map read).getD [] := by
    rw [objects_eq]
    cases (values fields spellings).find? holdsItems <;> rfl
  rw [hmap, hmap, map_find?_congr (h.imp hitems)]

/-! ### Blocks that are read alike -/

/-- A text of a contact is read from the contact and from the profile around it. -/
theorem contactText_congr
    (hflat : values fields spellings = values fields' spellings)
    (hcontact : (object? fields Spelling.contact).map (text · spellings) =
      (object? fields' Spelling.contact).map (text · spellings)) :
    contactText fields spellings = contactText fields' spellings := by
  unfold contactText
  rw [text_congr hflat]
  cases hblock : object? fields Spelling.contact with
  | none =>
      rw [hblock, Option.map_none, eq_comm, Option.map_eq_none_iff] at hcontact
      rw [hcontact]
  | some block =>
      rw [hblock, Option.map_some, eq_comm, Option.map_eq_some_iff] at hcontact
      obtain ⟨block', hblock', htext⟩ := hcontact
      rw [hblock']
      dsimp only
      rw [htext]

/-- The fields of a position that are texts. -/
def workTexts : List (List String) :=
  [Spelling.company, Spelling.role, Spelling.employmentType, Spelling.location,
    Spelling.startDate, Spelling.endDate]

theorem workItem_congr
    (htexts : ∀ spellings ∈ workTexts, values fields spellings = values fields' spellings)
    (hbullets : list fields Spelling.bullets '\n' = list fields' Spelling.bullets '\n') :
    workItem fields = workItem fields' := by
  have htext (spellings : List String) (h : spellings ∈ workTexts) :
      text fields spellings = text fields' spellings := text_congr (htexts spellings h)
  rw [workItem, workItem, htext Spelling.company (by simp [workTexts]),
    htext Spelling.role (by simp [workTexts]), htext Spelling.employmentType (by simp [workTexts]),
    htext Spelling.location (by simp [workTexts]), htext Spelling.startDate (by simp [workTexts]),
    htext Spelling.endDate (by simp [workTexts]), hbullets]

/-- The fields of a course of study that are texts. -/
def educationTexts : List (List String) :=
  [Spelling.institution, Spelling.degree, Spelling.field, Spelling.date]

theorem educationItem_congr
    (htexts : ∀ spellings ∈ educationTexts, values fields spellings = values fields' spellings)
    (hcoursework : list fields Spelling.coursework ',' = list fields' Spelling.coursework ',') :
    educationItem fields = educationItem fields' := by
  have htext (spellings : List String) (h : spellings ∈ educationTexts) :
      text fields spellings = text fields' spellings := text_congr (htexts spellings h)
  rw [educationItem, educationItem, htext Spelling.institution (by simp [educationTexts]),
    htext Spelling.degree (by simp [educationTexts]),
    htext Spelling.field (by simp [educationTexts]),
    htext Spelling.date (by simp [educationTexts]), hcoursework]

/-- A résumé is read from its five blocks. -/
theorem resume_congr
    (hprofile : (object? fields Spelling.profile).map profile =
      (object? fields' Spelling.profile).map profile)
    (hsummary : (first? fields Spelling.summary).map summary =
      (first? fields' Spelling.summary).map summary)
    (hskills : (first? fields Spelling.skills).map skills =
      (first? fields' Spelling.skills).map skills)
    (hwork : (objects fields Spelling.work).map workItem =
      (objects fields' Spelling.work).map workItem)
    (heducation : (objects fields Spelling.education).map educationItem =
      (objects fields' Spelling.education).map educationItem) :
    resume fields = resume fields' := by
  have helim {β γ : Type} (read : β → γ) (missing : γ) {value value' : Option β}
      (h : value.map read = value'.map read) : value.elim missing read = value'.elim missing read := by
    have hget (value : Option β) : value.elim missing read = (value.map read).getD missing := by
      cases value <;> rfl
    rw [hget, hget, h]
  rw [resume, resume, helim _ _ hprofile, helim _ _ hsummary, helim _ _ hskills, hwork, heducation]

end Vitae.Payload
