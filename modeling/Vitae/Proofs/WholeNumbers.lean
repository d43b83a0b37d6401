import Vitae.Proofs.FieldValues
import Vitae.Proofs.LockStep
import Vitae.Proofs.SameNumbers
import Vitae.Resume.TemplateData

/-!
# Whole numbers with and without a point

Nothing that is made of a document tells a whole number with a point from the integer that it stands
for: neither a page that is rendered against the document nor the résumé that it is read as.
Numbers reach a page by many ways: by themselves, in lists, in the points and courses of entries,
through the fields of a résumé, and by opening a section or not. The argument goes by these ways, and
each of them is shown to read documents with the same numbers alike.

Paths lead to values with the same numbers (`resolve?_sameNumbers`), so that a render meets related
contexts at every tag and goes on in step (`renderIn_sameNumbers`); and the fields of a payload are
read from values with the same numbers, so that the résumé is the same (`normalize_sameNumbers`).
-/

namespace Vitae

/-! ### What is put on a page -/

namespace Json

open Html

variable {value value' : Json} {items items' : List Json} {fields fields' : Fields}

theorem str?_bind_eq {value value' : Option Json} (h : Option.Rel SameNumbers value value') :
    value.bind str? = value'.bind str? := by
  cases h with
  | none => rfl
  | some h => exact h.str?_eq

theorem rel_items? {value value' : Option Json} (h : Option.Rel SameNumbers value value') :
    Option.Rel (List.Forall₂ SameNumbers) (value.bind items?) (value'.bind items?) :=
  rel_bind (fun _ _ hvalue => hvalue.items?) h

theorem SameNumbers.safe?_eq (h : SameNumbers value value') : safe? value = safe? value' := by
  cases h with
  | obj hnames h => exact str?_bind_eq (Fields.sameNumbers_of_forall₂ hnames h markerKey)
  | _ => rfl

/-- The text of a number is that of the integer that it stands for. -/
theorem text_whole {x : Double} {k : Int} (h : x.value = k) (hk : k.natAbs ≤ Number.exactBound) :
    (Number.float x).text = (Number.int k).text :=
  Number.text_float_of_toInt? (Double.toInt?_of_value h) hk

theorem SameNumbers.scalarText?_eq (h : SameNumbers value value') :
    scalarText? value = scalarText? value' := by
  cases h with
  | whole h hk => exact congrArg some (text_whole h hk)
  | _ => rfl

theorem listTexts_eq (h : List.Forall₂ SameNumbers items items') :
    listTexts items = listTexts items' := by
  have htexts : items.map scalarText? = items'.map scalarText? :=
    map_eq_of_forall₂ (fun _ _ hitem => hitem.scalarText?_eq) h
  have hfilter (items : List Json) :
      items.filterMap scalarText? = (items.map scalarText?).filterMap id := by
    rw [List.filterMap_map]
    rfl
  rw [listTexts, listTexts, hfilter, htexts, hfilter]

theorem listHtml_eq (h : List.Forall₂ SameNumbers items items') :
    listHtml items = listHtml items' := by
  rw [listHtml, listHtml, listTexts_eq h]

theorem Fields.SameNumbers.fieldText_eq (h : fields.SameNumbers fields') (key : String) :
    Html.fieldText fields key = Html.fieldText fields' key := by
  rw [Html.fieldText, Html.fieldText, str?_bind_eq (h key)]

theorem Fields.SameNumbers.fieldTexts_eq (h : fields.SameNumbers fields') (key : String) :
    Html.fieldTexts fields key = Html.fieldTexts fields' key := by
  have helim (fields : Fields) :
      Html.fieldTexts fields key = ((fields.get? key).bind Json.items?).elim [] listTexts := by
    unfold Html.fieldTexts
    cases (fields.get? key).bind Json.items? <;> rfl
  rw [helim, helim]
  exact elim_eq_of_rel (fun _ _ hitems => listTexts_eq hitems) (rel_items? (h key)) []

theorem blocksHtml_eq {block : Fields → Block}
    (hblock : ∀ entry entry' : Fields, entry.SameNumbers entry' → block entry = block entry')
    (h : List.Forall₂ SameNumbers items items') :
    blocksHtml block items = blocksHtml block items' := by
  have hentries := List.rel_filterMap (fun _ _ hitem => SameNumbers.fields? hitem) h
  have hmap := map_eq_of_forall₂
    (fun entry entry' hentry => congrArg Block.html (hblock entry entry' hentry)) hentries
  rw [blocksHtml, blocksHtml, hmap]

theorem Fields.SameNumbers.workBlock_eq (h : fields.SameNumbers fields') :
    workBlock fields = workBlock fields' := by
  simp only [workBlock, h.fieldText_eq, h.fieldTexts_eq]

theorem Fields.SameNumbers.educationBlock_eq (h : fields.SameNumbers fields') :
    educationBlock fields = educationBlock fields' := by
  simp only [educationBlock, h.fieldText_eq, h.fieldTexts_eq]

theorem formatList_eq (h : List.Forall₂ SameNumbers items items') (path : String) :
    formatList items path = formatList items' path := by
  have hwork : workHtml items = workHtml items' :=
    blocksHtml_eq (fun _ _ hentry => hentry.workBlock_eq) h
  have heducation : educationHtml items = educationHtml items' :=
    blocksHtml_eq (fun _ _ hentry => hentry.educationBlock_eq) h
  rw [formatList, formatList, hwork, heducation, listHtml_eq h]

theorem Fields.SameNumbers.formatObject_eq (h : fields.SameNumbers fields') :
    formatObject fields = formatObject fields' := by
  have hraw := elim_eq_of_rel (fun _ _ hitems => listHtml_eq hitems) (rel_items? (h "raw")) ""
  rw [Html.formatObject_eq, Html.formatObject_eq, str?_bind_eq (h "text"), hraw]

/-- What is put on the page for a value does not change with the way its numbers are written. -/
theorem format_eq {value value' : Option Json} (h : Option.Rel SameNumbers value value')
    (path : String) : format value path = format value' path := by
  cases h with
  | none => rfl
  | some h =>
      have hsafe := h.safe?_eq
      cases h with
      | whole h hk => exact congrArg escape (text_whole h hk)
      | arr h => exact formatList_eq h path
      | obj hnames h =>
          simp only [format, hsafe, (Fields.sameNumbers_of_forall₂ hnames h).formatObject_eq]
      | _ => rfl

/-- Nor does whether the value opens a section. -/
theorem holds_eq {value value' : Option Json} (h : Option.Rel SameNumbers value value') :
    holds value = holds value' := by
  cases h with
  | none => rfl
  | some h =>
      have hsafe := h.safe?_eq
      cases h with
      | whole h hk => exact congrArg (!·) (Double.isZero_of_value h)
      | arr h => exact congrArg (!·) (isEmpty_eq_of_forall₂ h)
      | obj hnames h => simp only [holds, hsafe]
      | _ => rfl

end Json

/-! ### Contexts with the same numbers -/

namespace Template

open Json (SameNumbers)

variable {value value' : Json} {stack stack' : Stack}

theorem part?_sameNumbers (h : value.SameNumbers value') (name : List Char) :
    Option.Rel SameNumbers (part? value name) (part? value' name) := by
  cases h with
  | arr h =>
      rw [part?_arr, part?_arr]
      cases (Text.readNumeral indexBound name).toOption with
      | none => exact .none
      | some i => exact rel_getElem? h i
  | obj hnames h => exact Json.Fields.sameNumbers_of_forall₂ hnames h _
  | _ => exact .none

theorem follow?_sameNumbers (h : value.SameNumbers value') (names : List (List Char)) :
    Option.Rel SameNumbers (follow? value names) (follow? value' names) := by
  induction names generalizing value value' with
  | nil => exact .some h
  | cons name rest ih =>
      simp only [follow?, List.foldlM_cons, Option.bind_eq_bind]
      exact rel_bind (fun _ _ hpart => ih hpart) (part?_sameNumbers h name)

/-- Whether two frames are of one kind and hold values with the same numbers. -/
inductive Frame.SameNumbers : Frame → Frame → Prop where
  | record {value value' : Json} (h : value.SameNumbers value') :
      SameNumbers (.record value) (.record value')
  | wrapped {value value' : Json} (h : value.SameNumbers value') :
      SameNumbers (.wrapped value) (.wrapped value')

/-- Whether two contexts have the same numbers frame by frame. -/
def Stack.SameNumbers : Stack → Stack → Prop := List.Forall₂ Frame.SameNumbers

/-- A path names values with the same numbers. -/
theorem resolve?_sameNumbers (h : Stack.SameNumbers stack stack') (path : String) :
    Option.Rel SameNumbers (stack.resolve? path) (stack'.resolve? path) := by
  unfold Stack.resolve?
  split
  · refine rel_or (rel_findSome? ?_ h) (rel_findSome? ?_ h)
    · intro frame frame' hframe
      cases hframe with
      | record h => exact .none
      | wrapped h => exact .some h
    · intro frame frame' hframe
      cases hframe with
      | record h =>
          have hplain : isPlain _ = isPlain _ := h.isPlain_eq
          simp only [Frame.plainRecord?, hplain]
          split
          · exact .some h
          · exact .none
      | wrapped h => exact .none
  · refine rel_findSome? ?_ h
    intro frame frame' hframe
    cases hframe with
    | record h => exact follow?_sameNumbers h _
    | wrapped h => exact .none

theorem itemFrame_sameNumbers (h : value.SameNumbers value') :
    Frame.SameNumbers (itemFrame value) (itemFrame value') := by
  have hcopy := h
  cases h with
  | arr => exact .record hcopy
  | obj => exact .record hcopy
  | _ => exact .wrapped hcopy

theorem sectionContexts_sameNumbers {found found' : Option Json}
    (hfound : Option.Rel SameNumbers found found') (h : Stack.SameNumbers stack stack') :
    List.Forall₂ Stack.SameNumbers (sectionContexts found stack)
      (sectionContexts found' stack') := by
  have hone : List.Forall₂ Stack.SameNumbers (if Html.holds found then [stack] else [])
      (if Html.holds found' then [stack'] else []) := by
    rw [Json.holds_eq hfound]
    split
    · exact .cons h .nil
    · exact .nil
  cases hfound with
  | none => exact hone
  | some hvalue =>
      have hsafe := hvalue.safe?_eq
      cases hvalue with
      | arr hitems =>
          simp only [sectionContexts]
          rw [List.forall₂_map_left_iff, List.forall₂_map_right_iff]
          exact hitems.imp fun item item' hitem => .cons (itemFrame_sameNumbers hitem) h
      | obj hnames hvalues =>
          simp only [sectionContexts]
          rw [hsafe]
          split
          · exact .cons (.cons (.record (.obj hnames hvalues)) h) .nil
          · exact hone
      | _ => exact hone

theorem invertedContexts_sameNumbers {found found' : Option Json}
    (hfound : Option.Rel SameNumbers found found') (h : Stack.SameNumbers stack stack') :
    List.Forall₂ Stack.SameNumbers (invertedContexts found stack)
      (invertedContexts found' stack') := by
  rw [invertedContexts, invertedContexts, Json.holds_eq hfound]
  split
  · exact .nil
  · exact .cons h .nil

/-- No tag tells contexts with the same numbers apart. -/
theorem inStep_sameNumbers (tag : Tag) : tag.InStep id id Stack.SameNumbers where
  shown stack stack' h := by
    rw [Tag.rename_id]
    cases tag with
    | substitution path => exact Json.format_eq (resolve?_sameNumbers h path) path
    | _ => rfl
  contexts stack stack' h := by
    rw [Tag.rename_id]
    cases tag with
    | sectionOpen name => exact sectionContexts_sameNumbers (resolve?_sameNumbers h name) h
    | invertedOpen name => exact invertedContexts_sameNumbers (resolve?_sameNumbers h name) h
    | _ => exact .nil

/-- Data with the same numbers are rendered alike, with the same scans and the same bodies. -/
theorem renderIn_sameNumbers (h : value.SameNumbers value') (template : String) :
    renderIn [.record value] template = renderIn [.record value'] template := by
  have hstack : Stack.SameNumbers [.record value] [.record value'] := .cons (.record h) .nil
  rw [renderIn, renderIn, renderFrom_eq_renderTokens, renderFrom_eq_renderTokens]
  exact renderTokens_related (fun tag _ => inStep_sameNumbers tag) hstack 0 ""

end Template

/-! ### Payloads with the same numbers -/

namespace Json

open Payload

variable {value value' : Json} {fields fields' : Fields}

theorem SameNumbers.scalar_eq (h : SameNumbers value value') : scalar value = scalar value' := by
  cases h with
  | whole h hk => exact text_whole h hk
  | _ => rfl

theorem SameNumbers.texts_eq (h : SameNumbers value value') (separator : Char) :
    texts separator value = texts separator value' := by
  cases h with
  | arr h =>
      have hscalars := map_eq_of_forall₂ (fun _ _ hitem => SameNumbers.scalar_eq hitem) h
      simp only [texts, hscalars]
  | _ => rfl

theorem Fields.SameNumbers.values (h : fields.SameNumbers fields') (spellings : List String) :
    List.Forall₂ Json.SameNumbers (values fields spellings) (values fields' spellings) :=
  forall₂_values fun key _ => h key

theorem Fields.SameNumbers.text_eq (h : fields.SameNumbers fields') (spellings : List String) :
    Payload.text fields spellings = Payload.text fields' spellings := by
  have hscalars := map_eq_of_forall₂ (fun _ _ hvalue => hvalue.scalar_eq) (h.values spellings)
  rw [Payload.text, Payload.text, hscalars]

theorem Fields.SameNumbers.list_eq (h : fields.SameNumbers fields') (spellings : List String)
    (separator : Char) : list fields spellings separator = list fields' spellings separator :=
  list_congr ((h.values spellings).imp fun _ _ hvalue => hvalue.texts_eq separator)

theorem Fields.SameNumbers.object? (h : fields.SameNumbers fields') (spellings : List String) :
    Option.Rel Fields.SameNumbers (object? fields spellings) (object? fields' spellings) :=
  rel_findSome? (fun _ _ hvalue => hvalue.fields?) (h.values spellings)

theorem Fields.SameNumbers.first? (h : fields.SameNumbers fields') (spellings : List String) :
    Option.Rel Json.SameNumbers (first? fields spellings) (first? fields' spellings) :=
  rel_find? (fun _ _ hvalue => congrArg (!·) hvalue.isNull_eq) (h.values spellings)

theorem Fields.SameNumbers.objects (h : fields.SameNumbers fields') (spellings : List String) :
    List.Forall₂ Fields.SameNumbers (objects fields spellings) (objects fields' spellings) := by
  have harrays := List.rel_filterMap (fun _ _ hvalue => SameNumbers.items? hvalue)
    (h.values spellings)
  have hfirst := rel_find?
    (fun items items' hitems => congrArg (!·) (isEmpty_eq_of_forall₂ hitems)) harrays
  exact List.rel_filterMap (fun _ _ hitem => SameNumbers.fields? hitem) (rel_getD hfirst .nil)

theorem Fields.SameNumbers.contactText_eq (h : fields.SameNumbers fields')
    (spellings : List String) : contactText fields spellings = contactText fields' spellings := by
  have hcontact := h.object? Spelling.contact
  unfold contactText
  rw [h.text_eq spellings]
  generalize Payload.object? fields Spelling.contact = contact at hcontact ⊢
  generalize Payload.object? fields' Spelling.contact = contact' at hcontact ⊢
  cases hcontact with
  | none => rfl
  | some hcontact => simp only [hcontact.text_eq spellings]

theorem Fields.SameNumbers.profile_eq (h : fields.SameNumbers fields') :
    profile fields = profile fields' := by
  simp only [profile, h.text_eq, h.contactText_eq]

theorem SameNumbers.summary_eq (h : SameNumbers value value') : summary value = summary value' := by
  have hscalar := h.scalar_eq
  cases h with
  | obj hnames h =>
      exact elim_eq_of_rel (fun _ _ htext => htext.scalar_eq)
        (Fields.sameNumbers_of_forall₂ hnames h Spelling.summaryText) ""
  | _ => exact hscalar

theorem SameNumbers.skills_eq (h : SameNumbers value value') : skills value = skills value' := by
  have htexts := h.texts_eq ','
  cases h with
  | obj hnames h =>
      exact elim_eq_of_rel (fun _ _ hraw => hraw.texts_eq ',')
        (Fields.sameNumbers_of_forall₂ hnames h Spelling.skillsRaw) []
  | _ => exact htexts

theorem Fields.SameNumbers.workItem_eq (h : fields.SameNumbers fields') :
    workItem fields = workItem fields' := by
  simp only [workItem, h.text_eq, h.list_eq]

theorem Fields.SameNumbers.educationItem_eq (h : fields.SameNumbers fields') :
    educationItem fields = educationItem fields' := by
  simp only [educationItem, h.text_eq, h.list_eq]

theorem Fields.SameNumbers.resume_eq (h : fields.SameNumbers fields') :
    resume fields = resume fields' := by
  have hprofile := elim_eq_of_rel (fun _ _ hblock => Fields.SameNumbers.profile_eq hblock)
    (h.object? Spelling.profile) {}
  have hsummary := elim_eq_of_rel (fun _ _ hvalue => SameNumbers.summary_eq hvalue)
    (h.first? Spelling.summary) ""
  have hskills := elim_eq_of_rel (fun _ _ hvalue => SameNumbers.skills_eq hvalue)
    (h.first? Spelling.skills) []
  have hwork := map_eq_of_forall₂ (fun _ _ hitem => Fields.SameNumbers.workItem_eq hitem)
    (h.objects Spelling.work)
  have heducation := map_eq_of_forall₂
    (fun _ _ hitem => Fields.SameNumbers.educationItem_eq hitem) (h.objects Spelling.education)
  rw [resume, resume, hprofile, hsummary, hskills, hwork, heducation]

end Json

/-- Payloads with the same numbers are the same résumé. -/
theorem normalize_sameNumbers {payload payload' : Json} (h : payload.SameNumbers payload') :
    normalize payload = normalize payload' := by
  cases h with
  | obj hnames h => exact (Json.Fields.sameNumbers_of_forall₂ hnames h).resume_eq
  | _ => rfl

/-- **Whole numbers are the same with and without a point.** Let some doubles of a document, in any
places, stand for integers of a magnitude at which all integers are doubles, zero with either sign
among them, and let these integers be written instead. The document is the same résumé as before,
and rendered as it is or as a résumé it gives the same page or comes to the same limit. -/
theorem indistinguishable_of_sameNumbers {data data' : Json} (h : data.SameNumbers data') :
    normalize data = normalize data' ∧
      ∀ (limits : Template.Limits) (template : String),
        Template.render limits template data = Template.render limits template data' ∧
          renderResume limits template data = renderResume limits template data' := by
  have hresume := normalize_sameNumbers h
  refine ⟨hresume, fun limits template => ⟨?_, ?_⟩⟩
  · rw [Template.render, Template.render, Template.renderIn_sameNumbers h]
  · rw [renderResume, renderResume, hresume]

/-- Negative zero, a number of a profile and the least number in question are written as integers:
zero opens no section before and after, and the others have the same texts. -/
theorem indistinguishable_of_sameNumbers_nested :
    let two : Double :=
      ⟨false, Nat.pow 2 52, -51, by decide, by decide, by decide, .inr (by decide)⟩
    let least : Double :=
      ⟨true, Nat.pow 2 52, 1, by decide, by decide, by decide, .inr (by decide)⟩
    let numbers : List Json := [.num (.float (.zero true)), .str "x", .num (.float least)]
    let numbers' : List Json := [.num (.int 0), .str "x", .num (.int (-9007199254740992))]
    let profile : Json := .obj [("name", .num (.float two))]
    let profile' : Json := .obj [("name", .num (.int 2))]
    let data : Json := .obj [("profile", profile), ("skills", .arr numbers)]
    let data' : Json := .obj [("profile", profile'), ("skills", .arr numbers')]
    let template := Template.tagText "^skills.0" ++ "none: " ++ Template.tagText "/skills.0" ++
      Template.tagText "skills"
    let resume : Resume :=
      { profile := { name := "2" }, skills := ["0", "x", "-9007199254740992"] }
    data.SameNumbers data' ∧ normalize data = resume ∧ normalize data' = resume ∧
      Template.render {} template data = .ok "none: 0, x, -9007199254740992" ∧
      Template.render {} template data' = .ok "none: 0, x, -9007199254740992" := by
  intro two least numbers numbers' profile profile' data data' template resume
  have hzero : (Double.zero true).value = (0 : Int) := by simp [Double.value, Double.zero]
  have htwo : two.value = (2 : Int) := Double.value_eq_iff.mpr (by decide +kernel)
  have hleast : least.value = (-9007199254740992 : Int) :=
    Double.value_eq_iff.mpr (by decide +kernel)
  have hnumbers : List.Forall₂ Json.SameNumbers numbers numbers' :=
    .cons (.whole hzero (by decide)) (.cons (.str "x") (.cons (.whole hleast (by decide)) .nil))
  have hprofile : profile.SameNumbers profile' :=
    .obj rfl (.cons (.whole htwo (by decide)) .nil)
  have hdata : data.SameNumbers data' := .obj rfl (.cons hprofile (.cons (.arr hnumbers) .nil))
  have hresume : normalize data' = resume := by decide +kernel
  have hpage : Template.render {} template data' = .ok "none: 0, x, -9007199254740992" := by
    decide +kernel
  obtain ⟨hsame, hrender⟩ := indistinguishable_of_sameNumbers hdata
  exact ⟨hdata, hsame.trans hresume, hresume, (hrender {} template).1.trans hpage, hpage⟩

/-- Beyond these numbers a whole number keeps its point. -/
example : ∃ x : Double, x.value = (9007199254740994 : Int) ∧
    (Number.float x).text = "9007199254740994.0" :=
  ⟨⟨false, Nat.pow 2 52 + 1, 1, by decide, by decide, by decide, .inr (by decide)⟩,
    Double.value_eq_iff.mpr (by decide +kernel), by decide +kernel⟩

end Vitae
