import Vitae.Proofs.Moments
import Vitae.Proofs.NoInjection
import Vitae.Proofs.Respelling

/-!
# Lists and their finished markup

The data of a résumé hold the work history and the education twice: as a list, which is made into
markup where a template shows it, and as this markup, which is put in as it is. `withMarkup` puts
the finished markup in the place of the list in any choice of the substitutions of a template.
`renderResume_withMarkup` says that this changes neither the page nor the number of scans, and that
in every context of a render the markup opens a section just when the list does.

The invariant is that an object within the data that has such a list has what is shown for it as
well, and that no object has one without the other (`HoldsLists`). So a path and the path of its
markup are looked up with success in the same frame (`shownAt_resolve?`), wherever the tag stands.
-/

namespace Vitae

/-- The list of a résumé that is found at a path. -/
def Resume.listAt (resume : Resume) (path : String) : List Json :=
  if path = Html.educationPath then resume.educationJson else resume.workJson

namespace Template

/-! ### Substitutions of finished markup -/

/-- The paths at which a list is shown as markup. -/
def listPaths : List String := Html.workPaths ++ [Html.educationPath]

/-- The path of the finished markup of the list at a path, if it is shown as markup there. -/
def markupPath (path : String) : String :=
  if path ∈ Html.workPaths then "work_experience_html"
  else if path = Html.educationPath then "education_html"
  else path

/-- The template in which each chosen substitution of such a list is one of its finished markup. The
tags of the template are counted from zero. -/
def withMarkup (chosen : Nat → Bool) (template : String) : String :=
  String.ofList (respellSome markupPath id chosen template.toList)

theorem markupPath_of_not_mem {path : String} (h : path ∉ listPaths) : markupPath path = path := by
  simp only [listPaths, List.mem_append, List.mem_singleton, not_or] at h
  rw [markupPath, if_neg h.1, if_neg h.2]

theorem swapsWords_id : SwapsWords id := fun s => .same s.toList

theorem swapsWords_markupPath : SwapsWords markupPath := by
  have hwords : ∀ path ∈ listPaths,
      Text.isWord path.toList ∧ Text.isWord (markupPath path).toList := by decide
  intro path
  by_cases hpath : path ∈ listPaths
  · obtain ⟨hword, hword'⟩ := hwords path hpath
    simpa using Text.Swaps.word [] [] hword hword'
  · rw [markupPath_of_not_mem hpath]
    exact .same _

theorem tokens_withMarkup (chosen : Nat → Bool) (template : String) :
    tokens (withMarkup chosen template).toList =
      renameSome markupPath id chosen (tokens template.toList) := by
  rw [withMarkup, String.toList_ofList]
  exact tokens_respellSome swapsWords_markupPath swapsWords_id chosen template.toList

/-! ### Looking up a key -/

/-- Whether a path is a single name and no index, so that only objects have a value for it. -/
def IsKey (path : String) : Prop :=
  path ≠ "." ∧ pathNames path = [path.toList] ∧
    (Text.readNumeral indexBound path.toList).toOption = none

instance (path : String) : Decidable (IsKey path) := inferInstanceAs (Decidable (_ ∧ _ ∧ _))

/-- The value that the object of a frame has under a key. -/
def Frame.field? (key : String) : Frame → Option Json
  | .record (.obj fields) => Json.Fields.get? fields key
  | _ => none

theorem IsKey.lookup? {key : String} (h : IsKey key) (frame : Frame) :
    frame.lookup? (pathNames key) = frame.field? key := by
  obtain ⟨-, hnames, hindex⟩ := h
  cases frame with
  | wrapped value => rfl
  | record value =>
      rw [hnames, Frame.lookup?, follow?, List.foldlM_cons]
      cases value with
      | obj fields =>
          simp only [part?, String.ofList_toList, Frame.field?]
          cases Json.Fields.get? fields key <;> rfl
      | arr items =>
          rw [part?_arr, hindex]
          rfl
      | _ => rfl

theorem IsKey.resolve? {key : String} (h : IsKey key) (stack : Stack) :
    stack.resolve? key = stack.findSome? (Frame.field? key) := by
  rw [Stack.resolve?, if_neg h.1, funext h.lookup?]

/-! ### Data with lists and their markup -/

/-- What is found at the path of a list and at the path of its markup: neither of the two, or the
list and what is shown for it. -/
inductive ShownAt (path : String) (items : List Json) : Option Json → Option Json → Prop where
  | missing : ShownAt path items none none
  | list : ShownAt path items (some (.arr items)) (some (Html.safe (Html.formatList items path)))

/-- Whether an object holds the lists of a résumé, each with its finished markup, or neither. -/
def HoldsLists (resume : Resume) (fields : Json.Fields) : Prop :=
  ∀ path ∈ listPaths,
    ShownAt path (resume.listAt path) (fields.get? path) (fields.get? (markupPath path))

/-- Whether all objects on a context, and all within these, hold the lists with their markup. -/
abbrev Stack.HoldLists (resume : Resume) : Stack → Prop :=
  Stack.All (Json.Everywhere (HoldsLists resume))

variable {resume : Resume} {path : String} {stack : Stack}

theorem isKey_of_mem_listPaths (h : path ∈ listPaths) : IsKey path ∧ IsKey (markupPath path) := by
  have hkeys : ∀ path ∈ listPaths, IsKey path ∧ IsKey (markupPath path) := by decide +kernel
  exact hkeys path h

theorem shownAt_field? (hpath : path ∈ listPaths) {frame : Frame}
    (h : frame.value.Everywhere (HoldsLists resume)) :
    ShownAt path (resume.listAt path) (frame.field? path) (frame.field? (markupPath path)) := by
  cases frame with
  | wrapped value => exact .missing
  | record value =>
      cases h with
      | obj hself _ => exact hself path hpath
      | _ => exact .missing

/-- A list and its markup are found in one and the same frame. -/
theorem shownAt_resolve? (hpath : path ∈ listPaths) (h : stack.HoldLists resume) :
    ShownAt path (resume.listAt path) (stack.resolve? path) (stack.resolve? (markupPath path)) := by
  obtain ⟨hkey, hkey'⟩ := isKey_of_mem_listPaths hpath
  rw [hkey.resolve?, hkey'.resolve?]
  induction stack with
  | nil => exact .missing
  | cons frame rest ih =>
      have hframe := shownAt_field? hpath (h frame List.mem_cons_self)
      have hrest := ih fun other hother => h other (List.mem_cons_of_mem _ hother)
      rw [List.findSome?_cons, List.findSome?_cons]
      generalize frame.field? path = value at hframe ⊢
      generalize frame.field? (markupPath path) = value' at hframe ⊢
      cases hframe with
      | missing => exact hrest
      | list => exact .list

/-- The list and its markup leave the same on the page. -/
theorem ShownAt.format_eq {items : List Json} {value value' : Option Json}
    (h : ShownAt path items value value') :
    Html.format value path = Html.format value' (markupPath path) := by
  cases h with
  | missing => rfl
  | list =>
      rw [Html.format_safe]
      rfl

/-! ### Renders in step -/

/-- Whether a tag is another one, but for the finished markup that may have taken the place of a
list. -/
inductive Tag.ShowsAs : Tag → Tag → Prop where
  | same (tag : Tag) : ShowsAs tag tag
  | markup (path : String) : ShowsAs (.substitution path) (.substitution (markupPath path))

theorem Tag.showsAs_rename (tag : Tag) : tag.ShowsAs (tag.rename markupPath id) := by
  cases tag with
  | substitution path => exact .markup path
  | _ => exact .same _

theorem Tag.ShowsAs.opens?_eq {tag tag' : Tag} (h : tag.ShowsAs tag') :
    tag'.opens? = tag.opens? := by
  cases h <;> rfl

/-- A tag and the same tag with finished markup cannot be told apart. -/
theorem pairing_showsAs (resume : Resume) :
    Pairing Tag.ShowsAs fun stack stack' => stack' = stack ∧ stack.HoldLists resume := by
  constructor
  · intro tag tag' h stack _ hstack
    obtain ⟨rfl, hstack⟩ := hstack
    cases h with
    | same => rfl
    | markup path =>
        by_cases hpath : path ∈ listPaths
        · exact (shownAt_resolve? hpath hstack).format_eq
        · rw [markupPath_of_not_mem hpath]
  · intro tag tag' h stack _ hstack
    obtain ⟨rfl, hstack⟩ := hstack
    cases h with
    | same =>
        exact List.forall₂_same.mpr fun context hmem =>
          ⟨rfl, hstack.of_mem_contexts (Json.hereditary_everywhere _) hmem⟩
    | markup path => exact .nil
  · intro tag tag' h ts ts' hts
    rw [h.opens?_eq]
    refine Option.map_congr fun name _ => closeAt?_paired ?_ ?_ hts 0
    · intro other other' hother
      rw [hother.opens?_eq]
    · intro other other' hother
      cases hother with
      | same => rfl
      | markup path => simp

/-- A template and the template with finished markup are the same computation. -/
theorem renderIn_withMarkup (chosen : Nat → Bool) (template : String)
    (h : stack.HoldLists resume) :
    renderIn stack (withMarkup chosen template) = renderIn stack template := by
  have hpaired : List.Forall₂ (Token.Paired Tag.ShowsAs) (tokens template.toList)
      (tokens (withMarkup chosen template).toList) := by
    rw [tokens_withMarkup]
    exact paired_renameSome Tag.ShowsAs.same Tag.showsAs_rename chosen _
  rw [renderIn, renderIn, renderFrom_eq_renderTokens, renderFrom_eq_renderTokens]
  exact (renderTokens_paired (pairing_showsAs resume) hpaired ⟨rfl, h⟩ 0 "").symm

/-! ### Contexts of a render -/

/-- The frames at the start stay in the contexts of all bodies. -/
theorem Reaches.mem_of_mem {start : Stack} (h : Reaches start stack) {frame : Frame}
    (hframe : frame ∈ start) : frame ∈ stack := by
  induction h with
  | start => exact hframe
  | body _ hcontext ih =>
      rw [contexts_eq_map_frames] at hcontext
      obtain ⟨top, -, rfl⟩ := List.mem_map.mp hcontext
      exact List.mem_append_right _ ih

theorem Reaches.holdLists {start : Stack} (h : Reaches start stack)
    (hstart : start.HoldLists resume) : stack.HoldLists resume := by
  induction h with
  | start => exact hstart
  | body _ hcontext ih => exact ih.of_mem_contexts (Json.hereditary_everywhere _) hcontext

end Template

/-! ### The data of a résumé -/

namespace Html

theorem Block.html_ne_empty (block : Block) : block.html ≠ "" := by
  intro h
  unfold Block.html at h
  exact absurd (String.append_eq_empty_iff.mp h).2 (by decide)

/-- A list of objects is shown as no markup at all only if it is empty: every entry leaves its block,
whatever its fields are. -/
theorem blocksHtml_map_eq_empty_iff {α : Type} {block : Json.Fields → Block} {encode : α → Json}
    (hencode : ∀ entry, (encode entry).fields? ≠ none) (entries : List α) :
    blocksHtml block (entries.map encode) = "" ↔ entries = [] := by
  cases entries with
  | nil => simp [blocksHtml]
  | cons entry rest =>
      obtain ⟨fields, hfields⟩ := Option.ne_none_iff_exists'.mp (hencode entry)
      simp [blocksHtml, hfields, Block.html_ne_empty]

theorem holds_arr (items : List Json) : holds (some (.arr items)) ↔ items ≠ [] := by
  simp [holds, safe?]

theorem holds_safe (markup : String) : holds (some (safe markup)) ↔ markup ≠ "" := by
  simp [holds]

end Html

open Template (HoldsLists ShownAt listPaths markupPath withMarkup)

/-- The outermost object holds every list and its markup. -/
theorem field?_templateData (resume : Resume) {path : String} (hpath : path ∈ listPaths) :
    Template.Frame.field? path (.record resume.templateData) =
        some (.arr (resume.listAt path)) ∧
      Template.Frame.field? (markupPath path) (.record resume.templateData) =
        some (Html.safe (Html.formatList (resume.listAt path) path)) := by
  simp only [listPaths, Html.workPaths, Html.educationPath, List.cons_append, List.nil_append,
    List.mem_cons, List.not_mem_nil, or_false] at hpath
  simp only [Resume.templateData, Json.ofFields, Template.Frame.field?, Json.Fields.get?_ofList]
  rcases hpath with rfl | rfl | rfl
  · exact ⟨rfl, rfl⟩
  · exact ⟨rfl, rfl⟩
  · exact ⟨rfl, rfl⟩

/-- Every object of a résumé holds the lists with their markup: all but the outermost one hold
neither. -/
theorem holdsLists_templateData (resume : Resume) :
    resume.templateData.Everywhere (HoldsLists resume) := by
  have hreserved : ∀ path ∈ listPaths, path ∈ reservedNames ∧ markupPath path ∈ reservedNames := by
    decide +kernel
  have hmarker : ∀ path ∈ listPaths, path ≠ Html.markerKey ∧ markupPath path ≠ Html.markerKey := by
    decide +kernel
  have hmarkup (text : String) : HoldsLists resume [(Html.markerKey, .str text)] := by
    intro path hpath
    obtain ⟨hlist, hshown⟩ := hmarker path hpath
    rw [Json.Fields.get?_cons, Json.Fields.get?_cons, if_neg hlist, if_neg hshown]
    exact .missing
  refine resume.everywhere_templateData ?_ (hmarkup _) (hmarkup _) ?_
  · intro fields hnone path hpath
    rw [hnone path (hreserved path hpath).1, hnone _ (hreserved path hpath).2]
    exact .missing
  · intro fields hfields path hpath
    obtain ⟨hlist, hshown⟩ := field?_templateData resume hpath
    rw [hfields] at hlist hshown
    simp only [Template.Frame.field?] at hlist hshown
    rw [hlist, hshown]
    exact .list

theorem holdLists_templateData (resume : Resume) :
    Template.Stack.HoldLists resume [.record resume.templateData] := by
  intro frame hframe
  obtain rfl := List.mem_singleton.mp hframe
  exact holdsLists_templateData resume

/-- In every context of a render, a path and the path of its markup lead to the list of the résumé
and to what is shown for it. -/
theorem resolve?_list {resume : Resume} {stack : Template.Stack}
    (h : Template.Reaches [.record resume.templateData] stack) {path : String}
    (hpath : path ∈ listPaths) :
    stack.resolve? path = some (.arr (resume.listAt path)) ∧
      stack.resolve? (markupPath path) =
        some (Html.safe (Html.formatList (resume.listAt path) path)) := by
  have hfound : stack.resolve? path ≠ none := by
    rw [(Template.isKey_of_mem_listPaths hpath).1.resolve?]
    intro hnone
    have hdata := List.findSome?_eq_none_iff.mp hnone _ (h.mem_of_mem List.mem_cons_self)
    rw [(field?_templateData resume hpath).1] at hdata
    cases hdata
  have hshown := Template.shownAt_resolve? hpath (h.holdLists (holdLists_templateData resume))
  generalize stack.resolve? path = value at hshown hfound ⊢
  generalize stack.resolve? (markupPath path) = value' at hshown ⊢
  cases hshown with
  | missing => exact absurd rfl hfound
  | list => exact ⟨rfl, rfl⟩

/-- In every context of a render, the work history opens a section just when it has entries, and so
does its markup. -/
theorem holds_work {resume : Resume} {stack : Template.Stack}
    (h : Template.Reaches [.record resume.templateData] stack) {path : String}
    (hpath : path ∈ "work_experience_html" :: Html.workPaths) :
    Html.holds (stack.resolve? path) ↔ resume.work ≠ [] := by
  have hencode (item : WorkItem) : item.toJson.fields? ≠ none := by
    simp [WorkItem.toJson, Json.ofFields, Json.fields?]
  simp only [Html.workPaths, List.mem_cons, List.not_mem_nil, or_false] at hpath
  rcases hpath with rfl | rfl | rfl
  · rw [show "work_experience_html" = markupPath "work_experience" from rfl,
      (resolve?_list h (by decide)).2, Html.holds_safe]
    exact not_congr (Html.blocksHtml_map_eq_empty_iff hencode resume.work)
  · rw [(resolve?_list h (by decide)).1, Html.holds_arr]
    exact not_congr List.map_eq_nil_iff
  · rw [(resolve?_list h (by decide)).1, Html.holds_arr]
    exact not_congr List.map_eq_nil_iff

/-- The same is true of the education. -/
theorem holds_education {resume : Resume} {stack : Template.Stack}
    (h : Template.Reaches [.record resume.templateData] stack) {path : String}
    (hpath : path ∈ ["education_html", Html.educationPath]) :
    Html.holds (stack.resolve? path) ↔ resume.education ≠ [] := by
  have hencode (item : EducationItem) : item.toJson.fields? ≠ none := by
    simp [EducationItem.toJson, Json.ofFields, Json.fields?]
  simp only [Html.educationPath, List.mem_cons, List.not_mem_nil, or_false] at hpath
  rcases hpath with rfl | rfl
  · rw [show "education_html" = markupPath "education" from rfl,
      (resolve?_list h (by decide)).2, Html.holds_safe]
    exact not_congr (Html.blocksHtml_map_eq_empty_iff hencode resume.education)
  · rw [(resolve?_list h (by decide)).1, Html.holds_arr]
    exact not_congr List.map_eq_nil_iff

/-- **Finished markup is as good as the list.** Putting it in the place of the work history or of
the education in any of the substitutions of a template changes nothing in the template but these
paths, and neither the outcome of a render nor the number of its scans. In every context that the
render comes to, list and markup open a section under the same condition: that the résumé has an
entry of this kind. -/
theorem renderResume_withMarkup (chosen : Nat → Bool) (template : String)
    (limits : Template.Limits) (payload : Json) :
    let resume := normalize payload
    let start : Template.Stack := [.record resume.templateData]
    Template.tokens (withMarkup chosen template).toList =
        Template.renameSome markupPath id chosen (Template.tokens template.toList) ∧
      renderResume limits (withMarkup chosen template) payload =
        renderResume limits template payload ∧
      ((Template.renderIn start (withMarkup chosen template)).run limits 0).2 =
        ((Template.renderIn start template).run limits 0).2 ∧
      ∀ stack, Template.Reaches start stack →
        (∀ path ∈ "work_experience_html" :: Html.workPaths,
          (Html.holds (stack.resolve? path) ↔ resume.work ≠ [])) ∧
        ∀ path ∈ ["education_html", Html.educationPath],
          (Html.holds (stack.resolve? path) ↔ resume.education ≠ []) := by
  intro resume start
  have hsame : Template.renderIn start (withMarkup chosen template) =
      Template.renderIn start template :=
    Template.renderIn_withMarkup chosen template (holdLists_templateData resume)
  refine ⟨Template.tokens_withMarkup chosen template, ?_, ?_, ?_⟩
  · rw [renderResume, renderResume, Template.render, Template.render, hsame]
  · rw [hsame]
  · intro stack hstack
    exact ⟨fun path hpath => holds_work hstack hpath,
      fun path hpath => holds_education hstack hpath⟩

/-- A section over a position without any text, with its own list shown inside it: the second and
the fourth tag are given the finished markup. -/
theorem renderResume_withMarkup_section :
    let template := Template.tagText "#work_experience" ++ Template.tagText " workExperience " ++
      Template.tagText "/work_experience" ++ Template.tagText "education"
    let chosen (i : Nat) : Bool := i == 1 || i == 3
    let payload : Json := .obj [("experience", .arr [.obj []]), ("education", .arr [.str "none"])]
    let start : Template.Stack := [.record (normalize payload).templateData]
    let inside : Template.Stack := .record (WorkItem.toJson {}) :: start
    withMarkup chosen template = Template.tagText "#work_experience" ++
        Template.tagText " work_experience_html " ++ Template.tagText "/work_experience" ++
        Template.tagText "education_html" ∧
      renderResume {} template payload = .ok "<div class=\"resume-item work-item\"></div>" ∧
      renderResume {} (withMarkup chosen template) payload =
        .ok "<div class=\"resume-item work-item\"></div>" ∧
      Template.Reaches start inside ∧
      Html.holds (inside.resolve? "work_experience_html") = true ∧
      Html.holds (inside.resolve? "education_html") = false := by
  intro template chosen payload start inside
  have hpage : renderResume {} template payload =
      .ok "<div class=\"resume-item work-item\"></div>" := by decide +kernel
  have hwork : (normalize payload).workJson = [WorkItem.toJson {}] :=
    congrArg (List.map WorkItem.toJson) (show (normalize payload).work = [{}] by decide +kernel)
  have hcontexts : (Template.Tag.sectionOpen "work_experience").contexts start = [inside] := by
    rw [Template.Tag.contexts, (resolve?_list .start (by decide)).1, Resume.listAt,
      if_neg (by decide), hwork]
    rfl
  have hinside : Template.Reaches start inside :=
    .body .start (hcontexts ▸ List.mem_singleton_self inside)
  obtain ⟨-, hsame, -, hholds⟩ := renderResume_withMarkup chosen template {} payload
  obtain ⟨hwork, heducation⟩ := hholds inside hinside
  refine ⟨by decide +kernel, hpage, hsame.trans hpage, hinside, ?_, ?_⟩
  · exact (hwork _ (by decide)).mpr (by decide +kernel)
  · exact Bool.eq_false_iff.mpr (mt (heducation _ (by decide)).mp (by decide +kernel))

end Vitae
