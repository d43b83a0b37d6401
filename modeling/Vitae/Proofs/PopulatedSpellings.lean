import Vitae.Proofs.FieldValues

/-!
# Empty and populated spellings

A list may stand under several spellings of its field, and one of them is chosen. Bullets and
courses come from the first spelling that gives a list with an entry, so a spelling that gives none
hides nothing. Skills, the work history and the education are chosen before they are read: skills
are the first value that is not `null`, and the two histories the first array that is not empty,
whatever is in it. There a spelling that gives an empty list does hide a populated one behind it
(`normalize_hidden`).

`normalize_populated_iff` compares a payload with the payloads in which one spelling of the field is
left (`keepOnly`). A list has an entry just when a spelling that the choice comes to (`Reached`) has
one by itself, and for bullets and courses this is so for any spelling.
-/

namespace Vitae

theorem Json.Fields.get?_filter (keep : String → Bool) (fields : Json.Fields) (name : String) :
    Json.Fields.get? (fields.filter fun field => keep field.1) name =
      if keep name then fields.get? name else none := by
  induction fields with
  | nil => exact (ite_self none).symm
  | cons field rest ih =>
      obtain ⟨other, value⟩ := field
      rw [List.filter_cons, Json.Fields.get?_cons]
      by_cases hname : name = other
      · subst hname
        rw [if_pos rfl]
        split
        · exact if_pos rfl
        · rename_i hkeep
          rw [ih, if_neg hkeep]
      · rw [if_neg hname, ← ih]
        split
        · exact if_neg hname
        · rfl

namespace Payload

variable {α : Type} {fields : Json.Fields} {spellings : List String} {key : String} {value : Json}
  {chosen : Json → Bool} {read : Json → List α}

/-! ### The spelling that is chosen -/

/-- An object in which `key` is the only spelling of a field. -/
def keepOnly (spellings : List String) (key : String) (fields : Json.Fields) : Json.Fields :=
  fields.filter fun field => field.1 = key ∨ field.1 ∉ spellings

/-- Whether the choice among the spellings of a field comes to `key`: no spelling before it has a
value that is chosen. -/
inductive Reached (chosen : Json → Bool) (fields : Json.Fields) : List String → String → Prop where
  | first (key : String) (rest : List String) : Reached chosen fields (key :: rest) key
  | next {other key : String} {rest : List String}
      (hother : ∀ value, fields.get? other = some value → chosen value = false)
      (h : Reached chosen fields rest key) : Reached chosen fields (other :: rest) key

/-- The list that is read from the first value of a field that is chosen. -/
def choice (chosen : Json → Bool) (read : Json → List α) (spellings : List String)
    (fields : Json.Fields) : List α :=
  ((values fields spellings).find? chosen).elim [] read

theorem get?_keepOnly (spellings : List String) (key other : String) (fields : Json.Fields) :
    Json.Fields.get? (keepOnly spellings key fields) other =
      if other = key ∨ other ∉ spellings then fields.get? other else none := by
  have h := Json.Fields.get?_filter (fun other => other = key ∨ other ∉ spellings) fields other
  simpa only [keepOnly, decide_eq_true_eq] using h

theorem Reached.mem (h : Reached chosen fields spellings key) : key ∈ spellings := by
  induction h with
  | first key rest => exact List.mem_cons_self
  | next _ _ ih => exact List.mem_cons_of_mem _ ih

theorem find?_values_cons {other : String} {kept : Json} (hkept : fields.get? other = some kept)
    (hchosen : chosen kept = true) (rest : List String) :
    (values fields (other :: rest)).find? chosen = some kept := by
  rw [values, List.filterMap_cons_some hkept, List.find?_cons_of_pos hchosen]

theorem find?_values_skip {other : String}
    (hother : ∀ kept, fields.get? other = some kept → chosen kept = false) (rest : List String) :
    (values fields (other :: rest)).find? chosen = (values fields rest).find? chosen := by
  unfold values
  cases hget : fields.get? other with
  | none => rw [List.filterMap_cons_none hget]
  | some kept =>
      rw [List.filterMap_cons_some hget,
        List.find?_cons_of_neg (Bool.eq_false_iff.mp (hother kept hget))]

theorem find?_values_eq_some_iff :
    (values fields spellings).find? chosen = some value ↔
      chosen value = true ∧
        ∃ key, Reached chosen fields spellings key ∧ fields.get? key = some value := by
  induction spellings with
  | nil =>
      constructor
      · intro h
        cases h
      · intro h
        obtain ⟨-, key, hreached, -⟩ := h
        cases hreached
  | cons other rest ih =>
      by_cases hfirst : ∃ kept, fields.get? other = some kept ∧ chosen kept = true
      · obtain ⟨kept, hkept, hchosen⟩ := hfirst
        rw [find?_values_cons hkept hchosen]
        constructor
        · intro h
          obtain rfl := Option.some.inj h
          exact ⟨hchosen, other, .first other rest, hkept⟩
        · intro h
          obtain ⟨-, key, hreached, hvalue⟩ := h
          cases hreached with
          | first => exact hkept.symm.trans hvalue
          | next hother _ => exact absurd hchosen (Bool.eq_false_iff.mp (hother kept hkept))
      · have hother (kept : Json) (hkept : fields.get? other = some kept) : chosen kept = false :=
          Bool.eq_false_iff.mpr fun hchosen => hfirst ⟨kept, hkept, hchosen⟩
        rw [find?_values_skip hother, ih]
        refine and_congr_right fun hchosen => exists_congr fun key => ?_
        constructor
        · intro h
          exact ⟨.next hother h.1, h.2⟩
        · intro h
          obtain ⟨hreached, hvalue⟩ := h
          cases hreached with
          | first => exact absurd ⟨value, hvalue, hchosen⟩ hfirst
          | next _ hreached => exact ⟨hreached, hvalue⟩

theorem choice_ne_nil_iff :
    choice chosen read spellings fields ≠ [] ↔
      ∃ key, Reached chosen fields spellings key ∧
        ∃ value, fields.get? key = some value ∧ chosen value = true ∧ read value ≠ [] := by
  unfold choice
  constructor
  · intro h
    cases hfind : (values fields spellings).find? chosen with
    | none =>
        rw [hfind] at h
        exact absurd rfl h
    | some value =>
        rw [hfind] at h
        obtain ⟨hchosen, key, hreached, hvalue⟩ := find?_values_eq_some_iff.mp hfind
        exact ⟨key, hreached, value, hvalue, hchosen, h⟩
  · intro h
    obtain ⟨key, hreached, value, hvalue, hchosen, hread⟩ := h
    rw [find?_values_eq_some_iff.mpr ⟨hchosen, key, hreached, hvalue⟩]
    exact hread

theorem reached_keepOnly (spellings : List String) {tried : List String} (hkey : key ∈ tried)
    (htried : ∀ other ∈ tried, other ∈ spellings) :
    Reached chosen (keepOnly spellings key fields) tried key := by
  induction tried with
  | nil => exact absurd hkey List.not_mem_nil
  | cons other rest ih =>
      by_cases hsame : other = key
      · subst hsame
        exact .first other rest
      · refine .next (fun value hvalue => ?_)
          (ih ((List.mem_cons.mp hkey).resolve_left fun heq => hsame heq.symm)
            fun other hother => htried other (List.mem_cons_of_mem _ hother))
        rw [get?_keepOnly, if_neg] at hvalue
        · cases hvalue
        · exact not_or_intro hsame (not_not_intro (htried other List.mem_cons_self))

/-- What a single spelling of a field gives by itself. -/
theorem choice_keepOnly_ne_nil_iff (hkey : key ∈ spellings) :
    choice chosen read spellings (keepOnly spellings key fields) ≠ [] ↔
      ∃ value, fields.get? key = some value ∧ chosen value = true ∧ read value ≠ [] := by
  have hget : Json.Fields.get? (keepOnly spellings key fields) key = fields.get? key := by
    rw [get?_keepOnly, if_pos (.inl rfl)]
  rw [choice_ne_nil_iff]
  constructor
  · intro h
    obtain ⟨other, hreached, value, hvalue, hchosen, hread⟩ := h
    have hother : other = key := by
      rw [get?_keepOnly] at hvalue
      split at hvalue
      · rename_i hkept
        exact hkept.resolve_right fun hnot => hnot hreached.mem
      · cases hvalue
    subst hother
    exact ⟨value, hget ▸ hvalue, hchosen, hread⟩
  · intro h
    obtain ⟨value, hvalue, hread⟩ := h
    exact ⟨key, reached_keepOnly spellings hkey fun _ hother => hother, value,
      hget.trans hvalue, hread⟩

/-- A field has an entry just when a spelling that the choice comes to has one by itself. -/
theorem choice_ne_nil_iff_alone :
    choice chosen read spellings fields ≠ [] ↔
      ∃ key, Reached chosen fields spellings key ∧
        choice chosen read spellings (keepOnly spellings key fields) ≠ [] := by
  rw [choice_ne_nil_iff]
  refine exists_congr fun key => and_congr_right fun hreached => ?_
  exact (choice_keepOnly_ne_nil_iff hreached.mem).symm

/-- A field from which the first value with an entry is chosen has one just when any spelling has
one by itself. -/
theorem choice_ne_nil_iff_mem (hchosen : ∀ value, chosen value = true ↔ read value ≠ []) :
    choice chosen read spellings fields ≠ [] ↔
      ∃ key ∈ spellings, choice chosen read spellings (keepOnly spellings key fields) ≠ [] := by
  constructor
  · intro h
    obtain ⟨key, hreached, halone⟩ := choice_ne_nil_iff_alone.mp h
    exact ⟨key, hreached.mem, halone⟩
  · intro h
    obtain ⟨key, hkey, halone⟩ := h
    obtain ⟨value, hvalue, hvaluechosen, -⟩ := (choice_keepOnly_ne_nil_iff hkey).mp halone
    have hsome : ((values fields spellings).find? chosen).isSome :=
      List.find?_isSome.mpr ⟨value, List.mem_filterMap.mpr ⟨key, hkey, hvalue⟩, hvaluechosen⟩
    obtain ⟨first, hfirst⟩ := Option.isSome_iff_exists.mp hsome
    rw [choice, hfirst]
    exact (hchosen first).mp (List.find?_some hfirst)

/-! ### The lists of a payload -/

theorem list_eq_choice (fields : Json.Fields) (spellings : List String) (separator : Char) :
    list fields spellings separator =
      choice (fun value => texts separator value ≠ []) (texts separator) spellings fields := by
  rw [list, List.find?_map, choice]
  show (((values fields spellings).find? fun value => texts separator value ≠ []).map
    (texts separator)).getD [] = _
  cases (values fields spellings).find? _ <;> rfl

end Payload

/-- **What empty spellings hide.** The bullets of a position and the courses of a course of study
have an entry just when any of their spellings has one by itself. Skills have one just when a
spelling has one by itself before which no other is present, except as `null`; and the work history
and the education have one just when a spelling has one by itself before which no other is an array
with an item. -/
theorem normalize_populated_iff (root item : Json.Fields) :
    ((Payload.workItem item).bullets ≠ [] ↔ ∃ key ∈ Spelling.bullets,
        (Payload.workItem (Payload.keepOnly Spelling.bullets key item)).bullets ≠ []) ∧
      ((Payload.educationItem item).coursework ≠ [] ↔ ∃ key ∈ Spelling.coursework,
        (Payload.educationItem (Payload.keepOnly Spelling.coursework key item)).coursework ≠ []) ∧
      ((normalize (.obj root)).skills ≠ [] ↔
        ∃ key, Payload.Reached (!·.isNull) root Spelling.skills key ∧
          (normalize (.obj (Payload.keepOnly Spelling.skills key root))).skills ≠ []) ∧
      ((normalize (.obj root)).work ≠ [] ↔
        ∃ key, Payload.Reached Payload.holdsItems root Spelling.work key ∧
          (normalize (.obj (Payload.keepOnly Spelling.work key root))).work ≠ []) ∧
      ((normalize (.obj root)).education ≠ [] ↔
        ∃ key, Payload.Reached Payload.holdsItems root Spelling.education key ∧
          (normalize (.obj (Payload.keepOnly Spelling.education key root))).education ≠ []) := by
  have hwork (fields : Json.Fields) : (normalize (.obj fields)).work ≠ [] ↔
      Payload.choice Payload.holdsItems Payload.itemFields Spelling.work fields ≠ [] := by
    show (Payload.objects fields Spelling.work).map Payload.workItem ≠ [] ↔ _
    rw [Payload.objects_eq]
    exact not_congr List.map_eq_nil_iff
  have heducation (fields : Json.Fields) : (normalize (.obj fields)).education ≠ [] ↔
      Payload.choice Payload.holdsItems Payload.itemFields Spelling.education fields ≠ [] := by
    show (Payload.objects fields Spelling.education).map Payload.educationItem ≠ [] ↔ _
    rw [Payload.objects_eq]
    exact not_congr List.map_eq_nil_iff
  refine ⟨?_, ?_, ?_, ?_, ?_⟩
  · simp only [Payload.workItem, Payload.list_eq_choice]
    exact Payload.choice_ne_nil_iff_mem fun value => decide_eq_true_iff
  · simp only [Payload.educationItem, Payload.list_eq_choice]
    exact Payload.choice_ne_nil_iff_mem fun value => decide_eq_true_iff
  · exact Payload.choice_ne_nil_iff_alone
  · simp only [hwork]
    exact Payload.choice_ne_nil_iff_alone
  · simp only [heducation]
    exact Payload.choice_ne_nil_iff_alone

/-- An empty list of skills hides a populated one, and a work history without any object hides one
with a position. -/
theorem normalize_hidden :
    let skills : Json.Fields := [("Skills", .ofStrings ["Rust"]), ("skills", .arr [])]
    let history : Json.Fields := [("workExperience", .arr [.obj [("company", .str "Mill")]]),
      ("work_experience", .arr [.str "none"])]
    (normalize (.obj (Payload.keepOnly Spelling.skills "Skills" skills))).skills = ["Rust"] ∧
      (normalize (.obj skills)).skills = [] ∧
      (normalize (.obj (Payload.keepOnly Spelling.work "workExperience" history))).work =
        [{ company := "Mill" }] ∧
      (normalize (.obj history)).work = [] := by
  decide +kernel

end Vitae
