import Vitae.Proofs.NumberText
import Vitae.Resume.TemplateData

/-!
# Canonical résumés

A résumé is canonical when its texts are trimmed and its lists hold no empty texts. Every payload is
normalized to a canonical résumé (`canonical_normalize`), and a canonical résumé comes back
unchanged from each of the two forms in which it is written: the form in which it is stored and the
data that templates are rendered against.

In both forms each block of the résumé stands under a spelling of it, and where several spellings
are in use they all lead to the same value (`Payload.Carries`). That is all that reading a résumé
back needs (`Payload.resume_eq`), so what the second form has beyond the first plays no part.
-/

namespace Vitae

open Text (trimmed present)

/-! ### Canonical form -/

/-- Whether a text neither begins nor ends with a blank. -/
structure Trimmed (s : String) : Prop where
  front : ∀ c, s.toList.head? = some c → Text.isBlank c = false
  back : ∀ c, s.toList.getLast? = some c → Text.isBlank c = false

/-- Trimming leaves just the trimmed texts as they are. -/
theorem trimmed_iff {s : String} : Trimmed s ↔ trimmed s = s := by
  constructor
  · intro h
    rw [trimmed, Text.trim_eq_self h.front h.back, String.ofList_toList]
  · intro h
    have htrim : Text.trim s.toList = s.toList := by
      rw [← Text.toList_trimmed, h]
    constructor
    · intro c hc
      exact Text.isBlank_head_trim (htrim.symm ▸ hc)
    · intro c hc
      exact Text.isBlank_getLast_trim (htrim.symm ▸ hc)

instance (s : String) : Decidable (Trimmed s) := decidable_of_iff _ trimmed_iff.symm

/-- Whether a list holds nothing but trimmed texts that are not empty. -/
def TrimmedEntries (entries : List String) : Prop := ∀ s ∈ entries, Trimmed s ∧ s ≠ ""

/-- A contact with trimmed texts. -/
structure Contact.Canonical (contact : Contact) : Prop where
  location : Trimmed contact.location
  email : Trimmed contact.email
  phone : Trimmed contact.phone
  linkedin : Trimmed contact.linkedin

/-- A profile with trimmed texts. -/
structure Profile.Canonical (profile : Profile) : Prop where
  name : Trimmed profile.name
  headline : Trimmed profile.headline
  contact : profile.contact.Canonical

/-- A position with trimmed texts and no empty bullets. -/
structure WorkItem.Canonical (item : WorkItem) : Prop where
  company : Trimmed item.company
  role : Trimmed item.role
  employmentType : Trimmed item.employmentType
  location : Trimmed item.location
  startDate : Trimmed item.startDate
  endDate : Trimmed item.endDate
  bullets : TrimmedEntries item.bullets

/-- A course of study with trimmed texts and no empty courses. -/
structure EducationItem.Canonical (item : EducationItem) : Prop where
  institution : Trimmed item.institution
  degree : Trimmed item.degree
  field : Trimmed item.field
  date : Trimmed item.date
  coursework : TrimmedEntries item.coursework

/-- A résumé with trimmed texts throughout, and no empty texts in its lists. -/
structure Resume.Canonical (resume : Resume) : Prop where
  profile : resume.profile.Canonical
  summary : Trimmed resume.summary
  skills : TrimmedEntries resume.skills
  work : ∀ item ∈ resume.work, item.Canonical
  education : ∀ item ∈ resume.education, item.Canonical

/-! ### Normalized payloads are canonical -/

theorem trimmed_empty : Trimmed "" := trimmed_iff.mpr Text.trimmed_empty

theorem trimmedEntries_nil : TrimmedEntries [] := by
  intro s hs
  exact absurd hs List.not_mem_nil

theorem trimmedEntries_present (entries : List String) : TrimmedEntries (present entries) := by
  intro s hs
  exact ⟨trimmed_iff.mpr (Text.trimmed_of_mem_present hs), Text.ne_empty_of_mem_present hs⟩

/-- No entry is left out or changed if all are trimmed and none is empty. -/
theorem TrimmedEntries.present_eq {entries : List String} (h : TrimmedEntries entries) :
    present entries = entries :=
  Text.present_eq_self fun s hs => ⟨trimmed_iff.mp (h s hs).1, (h s hs).2⟩

namespace Payload

theorem trimmed_scalar (value : Json) : Trimmed (scalar value) := by
  cases value with
  | str s => exact trimmed_iff.mpr (Text.trimmed_trimmed s)
  | num n => exact trimmed_iff.mpr n.trimmed_text
  | _ => exact trimmed_empty

theorem trimmedEntries_texts (separator : Char) (value : Json) :
    TrimmedEntries (texts separator value) := by
  cases value with
  | arr items => exact trimmedEntries_present _
  | str s => exact trimmedEntries_present _
  | _ => exact trimmedEntries_nil

theorem trimmed_text (fields : Json.Fields) (spellings : List String) :
    Trimmed (text fields spellings) := by
  unfold text
  cases h : ((values fields spellings).map scalar).find? (· ≠ "") with
  | none => exact trimmed_empty
  | some s =>
      obtain ⟨value, -, rfl⟩ := List.mem_map.mp (List.mem_of_find?_eq_some h)
      exact trimmed_scalar value

theorem trimmedEntries_list (fields : Json.Fields) (spellings : List String) (separator : Char) :
    TrimmedEntries (list fields spellings separator) := by
  unfold list
  cases h : ((values fields spellings).map (texts separator)).find? (· ≠ []) with
  | none => exact trimmedEntries_nil
  | some entries =>
      obtain ⟨value, -, rfl⟩ := List.mem_map.mp (List.mem_of_find?_eq_some h)
      exact trimmedEntries_texts separator value

theorem trimmed_contactText (fields : Json.Fields) (spellings : List String) :
    Trimmed (contactText fields spellings) := by
  unfold contactText
  cases object? fields Spelling.contact with
  | none => exact trimmed_text fields spellings
  | some contact =>
      dsimp only
      split
      · exact trimmed_text fields spellings
      · exact trimmed_text contact spellings

theorem canonical_profile (fields : Json.Fields) : (profile fields).Canonical where
  name := trimmed_text ..
  headline := trimmed_text ..
  contact :=
    { location := trimmed_contactText ..
      email := trimmed_contactText ..
      phone := trimmed_contactText ..
      linkedin := trimmed_contactText .. }

theorem canonical_workItem (fields : Json.Fields) : (workItem fields).Canonical where
  company := trimmed_text ..
  role := trimmed_text ..
  employmentType := trimmed_text ..
  location := trimmed_text ..
  startDate := trimmed_text ..
  endDate := trimmed_text ..
  bullets := trimmedEntries_list _ _ _

theorem canonical_educationItem (fields : Json.Fields) : (educationItem fields).Canonical where
  institution := trimmed_text ..
  degree := trimmed_text ..
  field := trimmed_text ..
  date := trimmed_text ..
  coursework := trimmedEntries_list _ _ _

theorem trimmed_summary (value : Json) : Trimmed (summary value) := by
  cases value with
  | obj fields =>
      show Trimmed ((Json.Fields.get? fields Spelling.summaryText).elim "" scalar)
      cases Json.Fields.get? fields Spelling.summaryText with
      | none => exact trimmed_empty
      | some value => exact trimmed_scalar value
  | str s => exact trimmed_scalar (.str s)
  | num n => exact trimmed_scalar (.num n)
  | _ => exact trimmed_empty

theorem trimmedEntries_skills (value : Json) : TrimmedEntries (skills value) := by
  cases value with
  | obj fields =>
      show TrimmedEntries ((Json.Fields.get? fields Spelling.skillsRaw).elim [] (texts ','))
      cases Json.Fields.get? fields Spelling.skillsRaw with
      | none => exact trimmedEntries_nil
      | some value => exact trimmedEntries_texts ',' value
  | arr items => exact trimmedEntries_texts ',' (.arr items)
  | str s => exact trimmedEntries_texts ',' (.str s)
  | _ => exact trimmedEntries_nil

theorem canonical_resume (fields : Json.Fields) : (resume fields).Canonical where
  profile := by
    unfold resume
    cases object? fields Spelling.profile with
    | none =>
        exact ⟨trimmed_empty, trimmed_empty,
          ⟨trimmed_empty, trimmed_empty, trimmed_empty, trimmed_empty⟩⟩
    | some block => exact canonical_profile block
  summary := by
    unfold resume
    cases first? fields Spelling.summary with
    | none => exact trimmed_empty
    | some value => exact trimmed_summary value
  skills := by
    unfold resume
    cases first? fields Spelling.skills with
    | none => exact trimmedEntries_nil
    | some value => exact trimmedEntries_skills value
  work := by
    intro item hitem
    obtain ⟨entry, -, rfl⟩ := List.mem_map.mp hitem
    exact canonical_workItem entry
  education := by
    intro item hitem
    obtain ⟨entry, -, rfl⟩ := List.mem_map.mp hitem
    exact canonical_educationItem entry

end Payload

/-- Whatever the payload is, it is normalized to a canonical résumé. -/
theorem canonical_normalize (payload : Json) : (normalize payload).Canonical := by
  cases payload with
  | obj fields => exact Payload.canonical_resume fields
  | _ => exact Payload.canonical_resume []

/-! ### Reading a field back -/

namespace Payload

/-- Whether a field stands in an object under one of its spellings at least, and under each of them
that is in use with the same value. -/
def Holds (fields : Json.Fields) (spellings : List String) (value : Json) : Prop :=
  ∃ count, values fields spellings = List.replicate (count + 1) value

variable {fields : Json.Fields} {spellings : List String}

theorem values_ofList {entries : List (String × Json)} {found : List Json}
    (h : spellings.filterMap (Json.Fields.get? entries.reverse) = found) :
    values (Json.Fields.ofList entries) spellings = found := by
  rw [← h, values, funext (Json.Fields.get?_ofList entries)]

/-- What an object given field by field holds can be looked up in the fields that it is given. -/
theorem holds_ofList {entries : List (String × Json)} {value : Json} (count : Nat)
    (h : spellings.filterMap (Json.Fields.get? entries.reverse) =
      List.replicate (count + 1) value) :
    Holds (Json.Fields.ofList entries) spellings value :=
  ⟨count, values_ofList h⟩

theorem scalar_str {s : String} (h : Trimmed s) : scalar (.str s) = s := trimmed_iff.mp h

theorem texts_ofStrings (separator : Char) {entries : List String} (h : TrimmedEntries entries) :
    texts separator (.ofStrings entries) = entries := by
  have hscalar : (entries.map Json.str).map scalar = entries := by
    rw [List.map_map]
    exact (List.map_congr_left fun s hs => scalar_str (h s hs).1).trans (List.map_id entries)
  rw [Json.ofStrings, texts, hscalar, h.present_eq]

/-- A trimmed text is read as it is. -/
theorem text_of_holds {s : String} (h : Holds fields spellings (.str s)) (hs : Trimmed s) :
    text fields spellings = s := by
  obtain ⟨count, hvalues⟩ := h
  rw [text, hvalues, List.map_replicate, scalar_str hs,
    List.find?_replicate_of_length_pos (Nat.succ_pos count)]
  by_cases hempty : s = ""
  · -- an empty text is passed over like a missing one, and nothing is read in its place
    subst hempty
    rfl
  · simp [hempty]

/-- A list of trimmed texts that are not empty is read as it is. -/
theorem list_of_holds {entries : List String} (separator : Char)
    (h : Holds fields spellings (.ofStrings entries)) (hentries : TrimmedEntries entries) :
    list fields spellings separator = entries := by
  obtain ⟨count, hvalues⟩ := h
  rw [list, hvalues, List.map_replicate, texts_ofStrings separator hentries,
    List.find?_replicate_of_length_pos (Nat.succ_pos count)]
  by_cases hempty : entries = []
  · subst hempty
    rfl
  · simp [hempty]

theorem object?_of_holds {value : Json} (h : Holds fields spellings value) :
    object? fields spellings = value.fields? := by
  obtain ⟨count, hvalues⟩ := h
  rw [object?, hvalues, List.findSome?_replicate_of_pos (Nat.succ_pos count)]

theorem first?_of_holds {value : Json} (h : Holds fields spellings value)
    (hvalue : value.isNull = false) : first? fields spellings = some value := by
  obtain ⟨count, hvalues⟩ := h
  rw [first?, hvalues, List.find?_replicate_of_length_pos (Nat.succ_pos count), hvalue]
  rfl

theorem objects_of_holds {items : List Json} (h : Holds fields spellings (.arr items)) :
    objects fields spellings = items.filterMap Json.fields? := by
  obtain ⟨count, hvalues⟩ := h
  have harrays : (values fields spellings).filterMap Json.items? =
      List.replicate (count + 1) items := by
    rw [hvalues]
    exact List.filterMap_replicate_of_some rfl
  rw [objects, harrays, List.find?_replicate_of_length_pos (Nat.succ_pos count)]
  by_cases hempty : items = []
  · subst hempty
    rfl
  · simp [hempty]

/-- A text that stands in the contact, and not in the profile as well, is read from the contact. -/
theorem contactText_of_holds {contact : Json.Fields} {s : String}
    (hcontact : Holds fields Spelling.contact (.obj contact))
    (hnested : Holds contact spellings (.str s)) (hflat : values fields spellings = [])
    (hs : Trimmed s) : contactText fields spellings = s := by
  have htext : text fields spellings = "" := by
    rw [text, hflat]
    rfl
  rw [contactText, object?_of_holds hcontact]
  show (if text contact spellings = "" then _ else _) = s
  rw [text_of_holds hnested hs, htext]
  split
  · rename_i hempty
    exact hempty.symm
  · rfl

/-! ### Reading a block back -/

theorem profile_of_canonical {person : Profile} (h : person.Canonical) :
    person.toJson.fields?.map profile = some person := by
  obtain ⟨name, headline, contact⟩ := person
  have hcontact : Holds (Json.Fields.ofList
      [("name", .str name), ("headline", .str headline), ("contact", contact.toJson)])
      Spelling.contact contact.toJson :=
    holds_ofList 0 (by simp [Spelling.contact, Json.Fields.get?_cons])
  obtain ⟨location, email, phone, linkedin⟩ := contact
  simp only [Profile.toJson, Json.ofFields, Json.fields?, Option.map_some, Option.some.injEq,
    profile, Profile.mk.injEq, Contact.mk.injEq]
  refine ⟨?_, ?_, ?_, ?_, ?_, ?_⟩
  · exact text_of_holds (holds_ofList 0 (by simp [Spelling.name, Json.Fields.get?_cons])) h.name
  · exact text_of_holds (holds_ofList 0 (by simp [Spelling.headline, Json.Fields.get?_cons]))
      h.headline
  -- no text of the contact stands in the profile as well
  · exact contactText_of_holds hcontact
      (holds_ofList 0 (by simp [Spelling.location, Json.Fields.get?_cons]))
      (values_ofList (by simp [Spelling.location, Json.Fields.get?_cons])) h.contact.location
  · exact contactText_of_holds hcontact
      (holds_ofList 0 (by simp [Spelling.email, Json.Fields.get?_cons]))
      (values_ofList (by simp [Spelling.email, Json.Fields.get?_cons])) h.contact.email
  · exact contactText_of_holds hcontact
      (holds_ofList 0 (by simp [Spelling.phone, Json.Fields.get?_cons]))
      (values_ofList (by simp [Spelling.phone, Json.Fields.get?_cons])) h.contact.phone
  · exact contactText_of_holds hcontact
      (holds_ofList 0 (by simp [Spelling.linkedin, Json.Fields.get?_cons]))
      (values_ofList (by simp [Spelling.linkedin, Json.Fields.get?_cons])) h.contact.linkedin

theorem workItem_of_canonical {item : WorkItem} (h : item.Canonical) :
    item.toJson.fields?.map workItem = some item := by
  obtain ⟨company, role, employmentType, location, startDate, endDate, bullets⟩ := item
  simp only [WorkItem.toJson, Json.ofFields, Json.fields?, Option.map_some, Option.some.injEq,
    workItem, WorkItem.mk.injEq]
  refine ⟨?_, ?_, ?_, ?_, ?_, ?_, ?_⟩
  · exact text_of_holds (holds_ofList 0 (by simp [Spelling.company, Json.Fields.get?_cons]))
      h.company
  · exact text_of_holds (holds_ofList 0 (by simp [Spelling.role, Json.Fields.get?_cons])) h.role
  · exact text_of_holds (holds_ofList 0 (by simp [Spelling.employmentType, Json.Fields.get?_cons]))
      h.employmentType
  · exact text_of_holds (holds_ofList 0 (by simp [Spelling.location, Json.Fields.get?_cons]))
      h.location
  · exact text_of_holds (holds_ofList 0 (by simp [Spelling.startDate, Json.Fields.get?_cons]))
      h.startDate
  · exact text_of_holds (holds_ofList 0 (by simp [Spelling.endDate, Json.Fields.get?_cons]))
      h.endDate
  · exact list_of_holds '\n' (holds_ofList 0 (by simp [Spelling.bullets, Json.Fields.get?_cons]))
      h.bullets

theorem educationItem_of_canonical {item : EducationItem} (h : item.Canonical) :
    item.toJson.fields?.map educationItem = some item := by
  obtain ⟨institution, degree, field, date, coursework⟩ := item
  simp only [EducationItem.toJson, Json.ofFields, Json.fields?, Option.map_some,
    Option.some.injEq, educationItem, EducationItem.mk.injEq]
  refine ⟨?_, ?_, ?_, ?_, ?_⟩
  · exact text_of_holds (holds_ofList 0 (by simp [Spelling.institution, Json.Fields.get?_cons]))
      h.institution
  · exact text_of_holds (holds_ofList 0 (by simp [Spelling.degree, Json.Fields.get?_cons]))
      h.degree
  · exact text_of_holds (holds_ofList 0 (by simp [Spelling.field, Json.Fields.get?_cons])) h.field
  · exact text_of_holds (holds_ofList 0 (by simp [Spelling.date, Json.Fields.get?_cons])) h.date
  · exact list_of_holds ',' (holds_ofList 0 (by simp [Spelling.coursework, Json.Fields.get?_cons]))
      h.coursework

theorem summary_summaryJson {r : Resume} (h : Trimmed r.summary) :
    summary r.summaryJson = r.summary := by
  rw [Resume.summaryJson, Json.ofFields, summary, Json.Fields.get?_ofList]
  exact scalar_str h

theorem skills_skillsJson {r : Resume} (h : TrimmedEntries r.skills) :
    skills r.skillsJson = r.skills := by
  rw [Resume.skillsJson, Json.ofFields, skills, Json.Fields.get?_ofList]
  exact texts_ofStrings ',' h

/-- The items of a list are read back from their objects if each of them is. -/
theorem map_filterMap_fields {α : Type} {encode : α → Json} {decode : Json.Fields → α}
    {items : List α} (h : ∀ item ∈ items, (encode item).fields?.map decode = some item) :
    ((items.map encode).filterMap Json.fields?).map decode = items := by
  induction items with
  | nil => rfl
  | cons item rest ih =>
      obtain ⟨block, hblock, hitem⟩ := Option.map_eq_some_iff.mp (h item List.mem_cons_self)
      rw [List.map_cons, List.filterMap_cons_some hblock, List.map_cons, hitem,
        ih fun other hother => h other (List.mem_cons_of_mem _ hother)]

/-! ### Reading a résumé back -/

/-- Whether an object holds the blocks of a résumé. -/
structure Carries (fields : Json.Fields) (r : Resume) : Prop where
  profile : Holds fields Spelling.profile r.profile.toJson
  summary : Holds fields Spelling.summary r.summaryJson
  skills : Holds fields Spelling.skills r.skillsJson
  work : Holds fields Spelling.work (.arr r.workJson)
  education : Holds fields Spelling.education (.arr r.educationJson)

/-- A canonical résumé is read back from every object that holds its blocks. -/
theorem resume_eq {r : Resume} (hfields : Carries fields r) (h : r.Canonical) :
    resume fields = r := by
  have hprofile : (object? fields Spelling.profile).elim {} profile = r.profile := by
    obtain ⟨block, hblock, hprofile⟩ := Option.map_eq_some_iff.mp (profile_of_canonical h.profile)
    rw [object?_of_holds hfields.profile, hblock]
    exact hprofile
  have hsummary : (first? fields Spelling.summary).elim "" summary = r.summary := by
    rw [first?_of_holds hfields.summary rfl]
    exact summary_summaryJson h.summary
  have hskills : (first? fields Spelling.skills).elim [] skills = r.skills := by
    rw [first?_of_holds hfields.skills rfl]
    exact skills_skillsJson h.skills
  have hwork : (objects fields Spelling.work).map workItem = r.work := by
    rw [objects_of_holds hfields.work]
    exact map_filterMap_fields fun item hitem => workItem_of_canonical (h.work item hitem)
  have heducation : (objects fields Spelling.education).map educationItem = r.education := by
    rw [objects_of_holds hfields.education]
    exact map_filterMap_fields fun item hitem => educationItem_of_canonical (h.education item hitem)
  rw [resume, hprofile, hsummary, hskills, hwork, heducation]

end Payload

theorem normalize_toJson {r : Resume} (h : r.Canonical) : normalize r.toJson = r := by
  refine Payload.resume_eq ⟨?_, ?_, ?_, ?_, ?_⟩ h
  · exact Payload.holds_ofList 0 (by simp [Spelling.profile, Json.Fields.get?_cons])
  · exact Payload.holds_ofList 0 (by simp [Spelling.summary, Json.Fields.get?_cons])
  · exact Payload.holds_ofList 0 (by simp [Spelling.skills, Json.Fields.get?_cons])
  · exact Payload.holds_ofList 0 (by simp [Spelling.work, Json.Fields.get?_cons])
  · exact Payload.holds_ofList 0 (by simp [Spelling.education, Json.Fields.get?_cons])

/-- Template data hold the profile and the work history under two spellings. -/
theorem normalize_templateData {r : Resume} (h : r.Canonical) :
    normalize r.templateData = r := by
  refine Payload.resume_eq ⟨?_, ?_, ?_, ?_, ?_⟩ h
  · exact Payload.holds_ofList 1 (by simp [Spelling.profile, Json.Fields.get?_cons])
  · exact Payload.holds_ofList 0 (by simp [Spelling.summary, Json.Fields.get?_cons])
  · exact Payload.holds_ofList 0 (by simp [Spelling.skills, Json.Fields.get?_cons])
  · exact Payload.holds_ofList 1 (by simp [Spelling.work, Json.Fields.get?_cons])
  · exact Payload.holds_ofList 0 (by simp [Spelling.education, Json.Fields.get?_cons])

/-- Normalizing is a retraction onto the canonical résumés: it gives one whatever the payload is,
and gives a canonical résumé back from its stored form and from its template data. So normalizing
once more, from either of the two, changes nothing. -/
theorem normalize_retraction :
    (∀ payload, (normalize payload).Canonical) ∧
      (∀ r : Resume, r.Canonical → normalize r.toJson = r ∧ normalize r.templateData = r) ∧
      ∀ payload, normalize (normalize payload).toJson = normalize payload ∧
        normalize (normalize payload).templateData = normalize payload := by
  have hback : ∀ r : Resume, r.Canonical →
      normalize r.toJson = r ∧ normalize r.templateData = r :=
    fun r h => ⟨normalize_toJson h, normalize_templateData h⟩
  exact ⟨canonical_normalize, hback, fun payload => hback _ (canonical_normalize payload)⟩

/-- A résumé that is stored with blanks around its texts, and with empty texts in its lists. -/
theorem normalize_retraction_work :
    let stored : Resume :=
      { summary := "\t", skills := [" Lean ", "\u2003", "4"]
        work := [{ company := "Mill\n", bullets := ["Ran it", "", "\u00a0sold it"] }] }
    let resume : Resume :=
      { skills := ["Lean", "4"], work := [{ company := "Mill", bullets := ["Ran it", "sold it"] }] }
    ¬ stored.Canonical ∧ normalize stored.toJson = resume ∧ resume.Canonical ∧
      normalize resume.toJson = resume ∧ normalize resume.templateData = resume := by
  intro stored resume
  have hstored : ¬ stored.Canonical := by
    intro h
    exact absurd h.summary (by decide +kernel)
  have hresume : normalize stored.toJson = resume := by decide +kernel
  obtain ⟨hcanonical, hback, -⟩ := normalize_retraction
  have h : resume.Canonical := hresume ▸ hcanonical stored.toJson
  exact ⟨hstored, hresume, h, hback resume h⟩

end Vitae
