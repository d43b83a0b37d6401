import Vitae.Proofs.FieldValues

/-!
# Objects that say the same

`SameResume` relates two objects that say the same as a résumé: each field, in each object within
that is read, either has all its spellings in use in both or has one spelling in use in each of
them, and what else stands in the objects does not matter. The fields are compared one by one, by
the values that they are read from (`SameField.forall₂_values`), so objects that say the same are
read as the same résumé (`SameResume.resume_eq`).
-/

namespace Vitae

namespace Payload

variable {fields fields' : Json.Fields} {spellings : List String} {same : Json → Json → Prop}

/-! ### Payloads that say the same -/

/-- Whether a field has the same value in two objects, up to changes within the value. -/
inductive SameField (same : Json → Json → Prop) (spellings : List String)
    (fields fields' : Json.Fields) : Prop where
  /-- Each spelling of the field is in use in both of them or in neither. -/
  | kept (h : ∀ key ∈ spellings, Option.Rel same (fields.get? key) (fields'.get? key)) :
      SameField same spellings fields fields'
  /-- The field has a single spelling in each of them. -/
  | renamed (key key' : String) {value value' : Json} (hbefore : Only fields spellings key value)
      (hafter : Only fields' spellings key' value') (h : same value value') :
      SameField same spellings fields fields'

/-- Whether two objects have the same values in all of these fields. -/
def SameFields (groups : List (List String)) (fields fields' : Json.Fields) : Prop :=
  ∀ spellings ∈ groups, SameField Eq spellings fields fields'

/-- The fields of a contact. -/
def contactFields : List (List String) :=
  [Spelling.location, Spelling.email, Spelling.phone, Spelling.linkedin]

/-- The fields of a profile, with those of a contact that may stand in it directly. -/
def profileFields : List (List String) := Spelling.name :: Spelling.headline :: contactFields

/-- The fields of a position. -/
def workFields : List (List String) := Spelling.bullets :: workTexts

/-- The fields of a course of study. -/
def educationFields : List (List String) := Spelling.coursework :: educationTexts

/-- Whether two objects say the same as a profile. -/
structure SameProfile (fields fields' : Json.Fields) : Prop where
  texts : SameFields profileFields fields fields'
  contact : SameField (SameObject (SameFields contactFields)) Spelling.contact fields fields'

/-- Whether two objects say the same as a résumé. -/
structure SameResume (fields fields' : Json.Fields) : Prop where
  profile : SameField (SameObject SameProfile) Spelling.profile fields fields'
  summary : SameField (SameObject (SameFields [[Spelling.summaryText]])) Spelling.summary
    fields fields'
  skills : SameField (SameObject (SameFields [[Spelling.skillsRaw]])) Spelling.skills fields fields'
  work : SameField (SameItems (SameFields workFields)) Spelling.work fields fields'
  education : SameField (SameItems (SameFields educationFields)) Spelling.education fields fields'

/-! ### Reading what says the same -/

/-- The values that a field is read from are in pairs, whatever the names they stand under. -/
theorem SameField.forall₂_values (h : SameField same spellings fields fields') :
    List.Forall₂ same (values fields spellings) (values fields' spellings) := by
  cases h with
  | kept h => exact Payload.forall₂_values h
  | renamed _ _ hbefore hafter h =>
      rw [values_of_only hbefore, values_of_only hafter]
      exact .cons h .nil

theorem SameFields.values_eq {groups : List (List String)} (h : SameFields groups fields fields') :
    ∀ spellings ∈ groups, values fields spellings = values fields' spellings := by
  intro spellings hmem
  have hvalues := (h spellings hmem).forall₂_values
  rwa [List.forall₂_eq_eq_eq] at hvalues

theorem SameFields.get?_eq {key : String} (h : SameFields [[key]] fields fields') :
    fields.get? key = fields'.get? key := by
  have hvalues := h.values_eq [key] List.mem_cons_self
  have hhead (fields : Json.Fields) : (values fields [key]).head? = fields.get? key := by
    rw [values, List.filterMap_cons]
    cases fields.get? key <;> rfl
  rw [← hhead, hvalues, hhead]

/-- A text of a contact says the same in the contact and in the profile around it. -/
theorem SameProfile.contactText_eq (h : SameProfile fields fields')
    (hmem : spellings ∈ contactFields) :
    contactText fields spellings = contactText fields' spellings := by
  refine contactText_congr ?_ ?_
  · exact h.texts.values_eq spellings (by simp [profileFields, hmem])
  · refine map_object?_congr (fun contact contact' hcontact => ?_)
      h.contact.forall₂_values
    exact text_congr (hcontact.values_eq spellings hmem)

theorem SameProfile.profile_eq (h : SameProfile fields fields') :
    profile fields = profile fields' := by
  have htext (spellings : List String) (hmem : spellings ∈ profileFields) :
      text fields spellings = text fields' spellings :=
    text_congr (h.texts.values_eq spellings hmem)
  have hcontact (spellings : List String) (hmem : spellings ∈ contactFields) :
      contactText fields spellings = contactText fields' spellings := h.contactText_eq hmem
  rw [profile, profile, htext Spelling.name (by simp [profileFields]),
    htext Spelling.headline (by simp [profileFields]),
    hcontact Spelling.location (by simp [contactFields]),
    hcontact Spelling.email (by simp [contactFields]),
    hcontact Spelling.phone (by simp [contactFields]),
    hcontact Spelling.linkedin (by simp [contactFields])]

/-- A summary and skills are read from the same first value. -/
theorem SameField.map_first?_eq {α : Type} {sameFields : Json.Fields → Json.Fields → Prop}
    {read : Json → α} (h : SameField (SameObject sameFields) spellings fields fields')
    (hread : ∀ block block', sameFields block block' → read (.obj block) = read (.obj block')) :
    (first? fields spellings).map read = (first? fields' spellings).map read := by
  refine map_first?_congr (h.forall₂_values.imp ?_)
  intro value value' hvalue
  cases hvalue with
  | same => exact ⟨rfl, rfl⟩
  | obj hblock => exact ⟨rfl, hread _ _ hblock⟩

theorem SameFields.workItem_eq (h : SameFields workFields fields fields') :
    workItem fields = workItem fields' := by
  have hvalues := h.values_eq
  refine workItem_congr (fun spellings hmem => hvalues spellings (List.mem_cons_of_mem _ hmem)) ?_
  rw [list, list, hvalues Spelling.bullets List.mem_cons_self]

theorem SameFields.educationItem_eq (h : SameFields educationFields fields fields') :
    educationItem fields = educationItem fields' := by
  have hvalues := h.values_eq
  refine educationItem_congr
    (fun spellings hmem => hvalues spellings (List.mem_cons_of_mem _ hmem)) ?_
  rw [list, list, hvalues Spelling.coursework List.mem_cons_self]

theorem SameResume.resume_eq (h : SameResume fields fields') : resume fields = resume fields' := by
  refine resume_congr ?_ ?_ ?_ ?_ ?_
  · exact map_object?_congr (fun _ _ hblock => hblock.profile_eq)
      h.profile.forall₂_values
  · refine h.summary.map_first?_eq fun block block' hblock => ?_
    rw [Payload.summary, Payload.summary, hblock.get?_eq]
  · refine h.skills.map_first?_eq fun block block' hblock => ?_
    rw [Payload.skills, Payload.skills, hblock.get?_eq]
  · exact map_objects_congr (fun _ _ hitem => hitem.workItem_eq)
      h.work.forall₂_values
  · exact map_objects_congr (fun _ _ hitem => hitem.educationItem_eq)
      h.education.forall₂_values

end Payload

end Vitae
