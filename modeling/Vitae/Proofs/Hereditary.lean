import Vitae.Resume.TemplateData

/-!
# Properties that parts inherit

Everything that a template can reach is a part of the data it is rendered against: paths lead from a
value to its parts, and sections put parts of a value on the context. So a property that passes from
every array to its items and from every object to its fields, once it holds of all values on the
context, holds of whatever a path names (`Stack.All.resolve?`) and of all values on the contexts of a
section's body (`Stack.All.of_mem_contexts`).

A property of this kind is that some condition on objects holds of every object within a value,
however deep it lies: `Json.Everywhere`. The data of a résumé are made of records, of finished markup
and of the outermost object; `Resume.everywhere_templateData` says what has to be shown of each.
-/

namespace Vitae

namespace Json

/-- Whether every object within a value has fields that satisfy a condition. -/
inductive Everywhere (condition : Fields → Prop) : Json → Prop where
  | null : Everywhere condition .null
  | bool (b : Bool) : Everywhere condition (.bool b)
  | num (n : Number) : Everywhere condition (.num n)
  | str (s : String) : Everywhere condition (.str s)
  | arr {items : List Json} (h : ∀ item ∈ items, Everywhere condition item) :
      Everywhere condition (.arr items)
  | obj {fields : Fields} (hself : condition fields)
      (h : ∀ field ∈ fields, Everywhere condition field.2) : Everywhere condition (.obj fields)

/-- A property that the parts of a value have if the value has it. -/
structure Hereditary (property : Json → Prop) : Prop where
  items : ∀ items : List Json, property (.arr items) → ∀ item ∈ items, property item
  fields : ∀ fields : Fields, property (.obj fields) → ∀ field ∈ fields, property field.2

theorem hereditary_everywhere (condition : Fields → Prop) : Hereditary (Everywhere condition) where
  items items h := by
    cases h with
    | arr h => exact h
  fields fields h := by
    cases h with
    | obj _ h => exact h

variable {condition : Fields → Prop}

theorem everywhere_ofFields {entries : List (String × Json)}
    (hself : condition (Fields.ofList entries))
    (h : ∀ entry ∈ entries, Everywhere condition entry.2) :
    Everywhere condition (.ofFields entries) :=
  .obj hself fun field hfield => h field (Fields.mem_of_mem_ofList hfield)

theorem everywhere_ofStrings (strings : List String) :
    Everywhere condition (.ofStrings strings) := by
  refine .arr fun item hitem => ?_
  obtain ⟨s, -, rfl⟩ := List.mem_map.mp hitem
  exact .str s

end Json

namespace Template

open Json (Hereditary)

variable {property : Json → Prop}

/-! ### Values that a path leads to -/

theorem part?_hereditary (hproperty : Hereditary property) {value found : Json}
    {name : List Char} (h : property value) (hfound : part? value name = some found) :
    property found := by
  cases value with
  | arr items =>
      simp only [part?] at hfound
      split at hfound
      · exact hproperty.items items h _ (List.mem_of_getElem? hfound)
      · cases hfound
  | obj fields => exact hproperty.fields fields h _ (Json.Fields.mem_of_get? hfound)
  | _ => simp [part?] at hfound

theorem follow?_hereditary (hproperty : Hereditary property) {value found : Json}
    {names : List (List Char)} (h : property value) (hfound : follow? value names = some found) :
    property found := by
  induction names generalizing value with
  | nil =>
      obtain rfl : value = found := by simpa [follow?] using hfound
      exact h
  | cons name rest ih =>
      simp only [follow?, List.foldlM_cons, Option.bind_eq_bind, Option.bind_eq_some_iff] at hfound
      obtain ⟨part, hpart, hrest⟩ := hfound
      exact ih (part?_hereditary hproperty h hpart) hrest

/-- The value of a frame. -/
def Frame.value : Frame → Json
  | .record value => value
  | .wrapped value => value

/-- Whether all values on a context have a property. -/
def Stack.All (property : Json → Prop) (stack : Stack) : Prop :=
  ∀ frame ∈ stack, property frame.value

theorem Stack.All.findSome? {stack : Stack} (h : stack.All property) {look : Frame → Option Json}
    (hlook : ∀ frame found, look frame = some found → property frame.value → property found)
    {value : Json} (hfound : stack.findSome? look = some value) : property value := by
  obtain ⟨frame, hmem, hframe⟩ := List.exists_of_findSome?_eq_some hfound
  exact hlook frame value hframe (h frame hmem)

/-- What a path names has the property. -/
theorem Stack.All.resolve? (hproperty : Hereditary property) {stack : Stack}
    (h : stack.All property) {path : String} {value : Json}
    (hvalue : stack.resolve? path = some value) : property value := by
  unfold Stack.resolve? at hvalue
  split at hvalue
  · -- the path `.` names the value of a frame itself, plain frames first
    rcases Option.or_eq_some_iff.mp hvalue with hwrapped | ⟨-, hplain⟩
    · refine h.findSome? (fun frame found hfound hframe => ?_) hwrapped
      cases frame with
      | record value => cases hfound
      | wrapped value => exact Option.some.inj hfound ▸ hframe
    · refine h.findSome? (fun frame found hfound hframe => ?_) hplain
      cases frame with
      | record value =>
          simp only [Frame.plainRecord?, Option.ite_none_right_eq_some] at hfound
          exact Option.some.inj hfound.2 ▸ hframe
      | wrapped value => cases hfound
  · refine h.findSome? (fun frame found hfound hframe => ?_) hvalue
    cases frame with
    | record value => exact follow?_hereditary hproperty hframe hfound
    | wrapped value => cases hfound

/-! ### Values on the contexts of a section -/

theorem Stack.All.cons {stack : Stack} (h : stack.All property) {frame : Frame}
    (hframe : property frame.value) : Stack.All property (frame :: stack) := by
  intro other hother
  rcases List.mem_cons.mp hother with rfl | hmem
  · exact hframe
  · exact h other hmem

theorem value_itemFrame (item : Json) : (itemFrame item).value = item := by
  cases item <;> rfl

theorem Stack.All.of_mem_sectionContexts (hproperty : Hereditary property) {value : Option Json}
    {stack context : Stack} (h : stack.All property) (hvalue : ∀ v, value = some v → property v)
    (hcontext : context ∈ sectionContexts value stack) : context.All property := by
  have hsame (hmem : context ∈ if Html.holds value then [stack] else []) :
      context.All property := by
    split at hmem
    · exact List.mem_singleton.mp hmem ▸ h
    · cases hmem
  unfold sectionContexts at hcontext
  split at hcontext
  · rename_i items
    obtain ⟨item, hitem, rfl⟩ := List.mem_map.mp hcontext
    have hframe := hproperty.items items (hvalue _ rfl) item hitem
    exact h.cons ((value_itemFrame item).symm ▸ hframe)
  · rename_i fields
    split at hcontext
    · have hframe : property (Frame.record (.obj fields)).value := hvalue _ rfl
      exact List.mem_singleton.mp hcontext ▸ h.cons hframe
    · exact hsame hcontext
  · exact hsame hcontext

/-- The contexts of a section's body hold nothing but the context of the section and parts of its
values. -/
theorem Stack.All.of_mem_contexts (hproperty : Hereditary property) {tag : Tag}
    {stack context : Stack} (h : stack.All property) (hcontext : context ∈ tag.contexts stack) :
    context.All property := by
  cases tag with
  | sectionOpen name =>
      exact h.of_mem_sectionContexts hproperty (fun _ hv => h.resolve? hproperty hv) hcontext
  | invertedOpen name =>
      simp only [Tag.contexts, invertedContexts] at hcontext
      split at hcontext
      · cases hcontext
      · exact List.mem_singleton.mp hcontext ▸ h
  | _ => cases hcontext

end Template

/-! ### The data of a résumé -/

open Json (Everywhere)

/-- The names that no record within the data of a résumé has: those of its large parts, and that of
finished markup. -/
def reservedNames : List String :=
  ["profile", "Profile", "work_experience", "workExperience", "work_experience_html", "education",
    "education_html", Html.markerKey]

/-- A condition holds of every object of a résumé if it holds of all records, of both pieces of
finished markup, and of the outermost object. -/
theorem Resume.everywhere_templateData {condition : Json.Fields → Prop} (resume : Resume)
    (hrecord : ∀ fields : Json.Fields, (∀ name ∈ reservedNames, fields.get? name = none) →
      condition fields)
    (hwork : condition [(Html.markerKey, .str (Html.workHtml resume.workJson))])
    (heducation : condition [(Html.markerKey, .str (Html.educationHtml resume.educationJson))])
    (houter : ∀ fields, resume.templateData = .obj fields → condition fields) :
    resume.templateData.Everywhere condition := by
  have record {entries : List (String × Json)}
      (hnames : ∀ name ∈ reservedNames, Json.Fields.get? entries.reverse name = none)
      (hparts : ∀ entry ∈ entries, entry.2.Everywhere condition) :
      (Json.ofFields entries).Everywhere condition := by
    refine Json.everywhere_ofFields (hrecord _ ?_) hparts
    intro name hname
    rw [Json.Fields.get?_ofList]
    exact hnames name hname
  have hcontact : resume.profile.contact.toJson.Everywhere condition :=
    record (by simp [reservedNames, Html.markerKey, Json.Fields.get?_cons]) (by simp [Everywhere.str])
  have hprofile : resume.profile.toJson.Everywhere condition :=
    record (by simp [reservedNames, Html.markerKey, Json.Fields.get?_cons])
      (by simp [Everywhere.str, hcontact])
  have hsummary : resume.summaryJson.Everywhere condition :=
    record (by simp [reservedNames, Html.markerKey, Json.Fields.get?_cons]) (by simp [Everywhere.str])
  have hskills : resume.skillsJson.Everywhere condition :=
    record (by simp [reservedNames, Html.markerKey, Json.Fields.get?_cons])
      (by simp [Json.everywhere_ofStrings])
  have hworkItems : Everywhere condition (.arr resume.workJson) := by
    refine .arr ?_
    intro item hitem
    obtain ⟨work, -, rfl⟩ := List.mem_map.mp hitem
    exact record (by simp [reservedNames, Html.markerKey, Json.Fields.get?_cons])
      (by simp [Everywhere.str, Json.everywhere_ofStrings])
  have heducationItems : Everywhere condition (.arr resume.educationJson) := by
    refine .arr ?_
    intro item hitem
    obtain ⟨education, -, rfl⟩ := List.mem_map.mp hitem
    exact record (by simp [reservedNames, Html.markerKey, Json.Fields.get?_cons])
      (by simp [Everywhere.str, Json.everywhere_ofStrings])
  have markup {text : String} (h : condition [(Html.markerKey, .str text)]) :
      (Html.safe text).Everywhere condition := .obj h (by simp [Everywhere.str])
  exact Json.everywhere_ofFields (houter _ rfl)
    (by simp [hprofile, hsummary, hskills, hworkItems, heducationItems, markup hwork,
      markup heducation])

end Vitae
