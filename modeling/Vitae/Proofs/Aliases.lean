import Vitae.Proofs.Hereditary
import Vitae.Proofs.Respelling
import Vitae.Proofs.Unmentioned

/-!
# Two spellings of a name

The data of a résumé holds the profile and the work history under two names each. `aliasSpelling`
writes a template anew with the second name wherever the first one begins a path or the name of a
section. `renderResume_aliasSpelling` says that no one can tell: the page and the number of scans
are the same, for every template that does not itself use the second names.

The renders go in step, on one and the same context. Its invariant is that every object on it, and
every object within these, has the same value under both spellings of a name (`AliasesAgree`): the
outermost object by its construction, all others because they have neither. So no item of a list and
no part of the profile can come in between under one spelling and not under the other.
-/

namespace Vitae

namespace Template

/-! ### Paths in the other spelling -/

/-- The second spellings. -/
def aliasNames : List String := ["Profile", "workExperience"]

/-- The other spelling of a name, if it has one. -/
def aliasOf (name : String) : String :=
  if name = "profile" then "Profile"
  else if name = "work_experience" then "workExperience"
  else name

/-- The path with its first name in the other spelling. -/
def aliasPath (path : String) : String :=
  String.ofList (['.'].intercalate ((pathNames path).modifyHead (onChars aliasOf)))

/-- The template with the other spelling in its tags. -/
def aliasSpelling (template : String) : String :=
  String.ofList (respellTags aliasPath aliasPath template.toList)

theorem swapsWords_aliasOf : SwapsWords aliasOf := by
  have hprofile : Text.isWord "profile".toList ∧ Text.isWord "Profile".toList := by decide
  have hwork : Text.isWord "work_experience".toList ∧ Text.isWord "workExperience".toList := by
    decide
  intro s
  unfold aliasOf
  split
  · subst s
    exact Text.Swaps.word [] [] hprofile.1 hprofile.2
  · split
    · subst s
      exact Text.Swaps.word [] [] hwork.1 hwork.2
    · exact .same _

theorem exists_pathNames (path : String) : ∃ first rest, pathNames path = first :: rest :=
  List.exists_cons_of_ne_nil (List.splitOn_ne_nil '.' path.toList)

theorem swapsWords_aliasPath : SwapsWords aliasPath := by
  intro path
  obtain ⟨first, rest, hnames⟩ := exists_pathNames path
  have hpath : path.toList = ['.'].intercalate (first :: rest) :=
    hnames ▸ (List.intercalate_splitOn '.').symm
  have hfirst := swapsWords_aliasOf.onChars first
  rw [aliasPath, hnames, hpath, String.toList_ofList, List.modifyHead_cons]
  cases rest with
  | nil => simpa only [List.intercalate_singleton] using hfirst
  | cons second rest =>
      simpa only [List.intercalate_cons_cons, List.append_assoc, List.nil_append] using
        hfirst.append [] (['.'] ++ ['.'].intercalate (second :: rest))

/-- No name of a path holds a point. -/
theorem not_mem_of_mem_splitOn {s name : List Char} (h : name ∈ s.splitOn '.') : '.' ∉ name := by
  induction hs : s.length using Nat.strongRecOn generalizing s with
  | ind n ih =>
  subst hs
  by_cases hpoint : '.' ∈ s
  · obtain ⟨first, rest, rfl, hfirst⟩ := List.eq_append_cons_of_mem hpoint
    rw [List.splitOn_append_cons_self_of_not_mem hfirst] at h
    rcases List.mem_cons.mp h with rfl | hrest
    · exact hfirst
    · exact ih rest.length (by simp only [List.length_append, List.length_cons]; omega) hrest rfl
  · rw [List.splitOn_eq_singleton hpoint] at h
    exact List.mem_singleton.mp h ▸ hpoint

theorem pathNames_aliasPath (path : String) :
    pathNames (aliasPath path) = (pathNames path).modifyHead (onChars aliasOf) := by
  obtain ⟨first, rest, hnames⟩ := exists_pathNames path
  have hpoints (name : List Char) (h : name ∈ first :: rest) : '.' ∉ name :=
    not_mem_of_mem_splitOn (hnames ▸ h)
  have hfirst : '.' ∉ onChars aliasOf first := by
    have hsame := hpoints first List.mem_cons_self
    unfold onChars aliasOf
    split
    · decide
    · split
      · decide
      · simpa using hsame
  rw [pathNames, aliasPath, String.toList_ofList, hnames, List.modifyHead_cons]
  refine List.splitOn_intercalate '.' (fun name hmem => ?_) (List.cons_ne_nil _ _)
  rcases List.mem_cons.mp hmem with rfl | hrest
  · exact hfirst
  · exact hpoints name (List.mem_cons_of_mem _ hrest)

theorem firstName_aliasPath (path : String) :
    firstName (aliasPath path) = aliasOf (firstName path) := by
  obtain ⟨first, rest, hnames⟩ := exists_pathNames path
  rw [firstName, firstName, pathNames_aliasPath, hnames]
  exact String.ofList_toList

/-- A path is its first name and the names behind it. -/
theorem eq_of_firstName_eq {path path' : String} (hfirst : firstName path = firstName path')
    (hrest : (pathNames path).tail = (pathNames path').tail) : path = path' := by
  obtain ⟨first, rest, hnames⟩ := exists_pathNames path
  obtain ⟨first', rest', hnames'⟩ := exists_pathNames path'
  simp only [firstName, hnames, hnames', List.headD_cons, List.tail_cons] at hfirst hrest
  obtain rfl := String.ofList_injective hfirst
  have hsplit : path.toList.splitOn '.' = path'.toList.splitOn '.' :=
    hnames.trans (hrest ▸ hnames'.symm)
  have hjoin (s : List Char) : ['.'].intercalate (s.splitOn '.') = s := List.intercalate_splitOn '.'
  have htoList : path.toList = path'.toList := by
    rw [← hjoin path.toList, hsplit, hjoin]
  exact String.toList_injective htoList

theorem aliasOf_injective {name name' : String} (h : name ∉ aliasNames) (h' : name' ∉ aliasNames)
    (heq : aliasOf name = aliasOf name') : name = name' := by
  simp only [aliasNames, List.mem_cons, List.not_mem_nil, or_false, not_or] at h h'
  unfold aliasOf at heq
  grind

/-- Paths that differ keep different spellings, unless they begin with a second spelling. -/
theorem aliasPath_injective {path path' : String} (h : firstName path ∉ aliasNames)
    (h' : firstName path' ∉ aliasNames) (heq : aliasPath path = aliasPath path') :
    path = path' := by
  have hfirst : aliasOf (firstName path) = aliasOf (firstName path') := by
    rw [← firstName_aliasPath, heq, firstName_aliasPath]
  have htail (path : String) : (pathNames (aliasPath path)).tail = (pathNames path).tail := by
    rw [pathNames_aliasPath, List.tail_modifyHead]
  exact eq_of_firstName_eq (aliasOf_injective h h' hfirst) (by rw [← htail, heq, htail])

/-- The other spelling of a path is a fixed path only if the path is. -/
theorem aliasPath_eq_iff {path fixed : String} (h : firstName path ∉ aliasNames)
    (hfixed : firstName fixed ∉ aliasNames) (hsame : aliasPath fixed = fixed) :
    aliasPath path = fixed ↔ path = fixed := by
  constructor
  · intro heq
    exact aliasPath_injective h hfixed (heq.trans hsame.symm)
  · rintro rfl
    exact hsame

/-! ### Data with both spellings -/

/-- Whether an object has the same value under both spellings of a name. -/
def AliasesAgree (fields : Json.Fields) : Prop :=
  fields.get? "Profile" = fields.get? "profile" ∧
    fields.get? "workExperience" = fields.get? "work_experience"

/-- Whether all objects on a context, and all within these, have the same values under both
spellings. -/
abbrev Stack.AliasesAgree : Stack → Prop := Stack.All (Json.Everywhere Template.AliasesAgree)

theorem get?_aliasOf {fields : Json.Fields} (h : AliasesAgree fields) (name : String) :
    fields.get? (aliasOf name) = fields.get? name := by
  unfold aliasOf
  split
  · subst name
    exact h.1
  · split
    · subst name
      exact h.2
    · rfl

/-- Neither spelling is an index. -/
theorem readNumeral_aliasOf (name : List Char) :
    (Text.readNumeral indexBound (onChars aliasOf name)).toOption =
      (Text.readNumeral indexBound name).toOption := by
  have hchars {s : String} (h : String.ofList name = s) : name = s.toList := by
    rw [← h, String.toList_ofList]
  unfold onChars aliasOf
  split
  · rename_i hname
    obtain rfl := hchars hname
    decide +kernel
  · split
    · rename_i hname
      obtain rfl := hchars hname
      decide +kernel
    · rw [String.toList_ofList]

theorem part?_aliasOf {value : Json} (h : value.Everywhere AliasesAgree) (name : List Char) :
    part? value (onChars aliasOf name) = part? value name := by
  cases h with
  | obj hself h =>
      simpa only [part?, onChars, String.ofList_toList] using get?_aliasOf hself (String.ofList name)
  | arr h =>
      rw [part?_arr, part?_arr, readNumeral_aliasOf]
  | _ => rfl

theorem lookup?_aliasPath (path : String) {frame : Frame}
    (h : frame.value.Everywhere AliasesAgree) :
    frame.lookup? (pathNames (aliasPath path)) = frame.lookup? (pathNames path) := by
  cases frame with
  | wrapped value => simp only [Frame.lookup?]
  | record value =>
      obtain ⟨first, rest, hnames⟩ := exists_pathNames path
      have hpart : part? value (onChars aliasOf first) = part? value first := part?_aliasOf h first
      simp only [pathNames_aliasPath, hnames, List.modifyHead_cons, Frame.lookup?, follow?,
        List.foldlM_cons, hpart]

/-- A path names the same value in both spellings. -/
theorem resolve?_aliasPath {stack : Stack} (h : stack.AliasesAgree) {path : String}
    (hpath : firstName path ∉ aliasNames) :
    stack.resolve? (aliasPath path) = stack.resolve? path := by
  have hlook : stack.findSome? (Frame.lookup? (pathNames (aliasPath path))) =
      stack.findSome? (Frame.lookup? (pathNames path)) := by
    induction stack with
    | nil => rw [List.findSome?_nil, List.findSome?_nil]
    | cons frame rest ih =>
        rw [List.findSome?_cons, List.findSome?_cons, lookup?_aliasPath path (h frame (by simp)),
          ih fun frame hframe => h frame (List.mem_cons_of_mem _ hframe)]
  have hpoint : aliasPath path = "." ↔ path = "." :=
    aliasPath_eq_iff hpath (by decide +kernel) (by decide +kernel)
  unfold Stack.resolve?
  simp only [hpoint, hlook]

/-- A value is shown alike under both spellings of its path. -/
theorem format_aliasPath (value : Option Json) {path : String}
    (hpath : firstName path ∉ aliasNames) :
    Html.format value (aliasPath path) = Html.format value path := by
  have heducation : aliasPath path = Html.educationPath ↔ path = Html.educationPath :=
    aliasPath_eq_iff hpath (by decide +kernel) (by decide +kernel)
  have hwork : aliasPath path ∈ Html.workPaths ↔ path ∈ Html.workPaths := by
    have hname : firstName "work_experience" = "work_experience" := by decide +kernel
    have hother : aliasPath "work_experience" = "workExperience" := by decide +kernel
    have hfirst : aliasPath path ≠ "work_experience" := by
      intro heq
      have haliasOf : aliasOf (firstName path) = "work_experience" :=
        calc
          aliasOf (firstName path) = firstName (aliasPath path) := (firstName_aliasPath path).symm
          _ = firstName "work_experience" := congrArg firstName heq
          _ = "work_experience" := hname
      unfold aliasOf at haliasOf
      grind
    have hsecond : aliasPath path = "workExperience" ↔ path = "work_experience" := by
      constructor
      · intro heq
        exact aliasPath_injective hpath (by decide +kernel) (heq.trans hother.symm)
      · intro heq
        exact (congrArg aliasPath heq).trans hother
    have hself : path ≠ "workExperience" := by
      rintro rfl
      exact hpath (by decide +kernel)
    simp [Html.workPaths, hfirst, hsecond, hself]
  unfold Html.format Html.formatList
  simp only [hwork, heducation]

/-! ### Renders in both spellings -/

/-- A tag and its other spelling cannot be told apart on data with both spellings. -/
theorem inStep_aliasPath {tag : Tag} (htag : firstName tag.name ∉ aliasNames) :
    tag.InStep aliasPath aliasPath fun stack stack' => stack' = stack ∧ stack.AliasesAgree := by
  refine ⟨?_, ?_⟩
  · rintro _ stack ⟨rfl, hstack⟩
    cases tag with
    | substitution path =>
        have hvalue : stack.resolve? (aliasPath path) = stack.resolve? path :=
          resolve?_aliasPath hstack htag
        have hformat : Html.format (stack.resolve? path) (aliasPath path) =
            Html.format (stack.resolve? path) path := format_aliasPath _ htag
        rw [Tag.rename, Tag.shown, Tag.shown, hvalue, hformat]
    | _ => rfl
  · rintro _ stack ⟨rfl, hstack⟩
    have hcontexts : (tag.rename aliasPath aliasPath).contexts stack = tag.contexts stack := by
      cases tag with
      | sectionOpen name =>
          have hvalue : stack.resolve? (aliasPath name) = stack.resolve? name :=
            resolve?_aliasPath hstack htag
          rw [Tag.rename, Tag.contexts, Tag.contexts, hvalue]
      | invertedOpen name =>
          have hvalue : stack.resolve? (aliasPath name) = stack.resolve? name :=
            resolve?_aliasPath hstack htag
          rw [Tag.rename, Tag.contexts, Tag.contexts, hvalue]
      | _ => rfl
    rw [hcontexts]
    exact List.forall₂_same.mpr fun context hmem =>
      ⟨rfl, hstack.of_mem_contexts (Json.hereditary_everywhere _) hmem⟩

theorem firstName_of_section? {tag : Tag} {name : String} (h : tag.section? = some name) :
    tag.name = name := by
  cases tag <;> simp_all [Tag.section?, Tag.name]

theorem tokens_aliasSpelling (template : String) :
    tokens (aliasSpelling template).toList =
      (tokens template.toList).map (.rename aliasPath aliasPath) := by
  rw [aliasSpelling, String.toList_ofList]
  exact tokens_respellTags swapsWords_aliasPath swapsWords_aliasPath template.toList

/-- A template and its other spelling are the same computation on data with both spellings. -/
theorem renderIn_aliasSpelling {template : String}
    (htags : ∀ placed ∈ allTags template.toList, firstName placed.tag.name ∉ aliasNames)
    {stack : Stack} (hstack : stack.AliasesAgree) :
    renderIn stack (aliasSpelling template) = renderIn stack template := by
  have htokens (tag : Tag) (hmem : .tag tag ∈ tokens template.toList) :
      firstName tag.name ∉ aliasNames := by
    obtain ⟨placed, hplaced, rfl⟩ := mem_tagsFrom_of_mem_tokens hmem 0
    exact htags placed hplaced
  rw [renderIn, renderIn, renderFrom_eq_renderTokens, renderFrom_eq_renderTokens,
    tokens_aliasSpelling]
  refine (renderTokens_rename (fun tag hmem => inStep_aliasPath (htokens tag hmem))
    (fun tag tag' n n' hmem hmem' hn hn' heq => ?_) ⟨rfl, hstack⟩ 0 "").symm
  have hname := htokens tag hmem
  have hname' := htokens tag' hmem'
  rw [firstName_of_section? hn] at hname
  rw [firstName_of_section? hn'] at hname'
  exact aliasPath_injective hname hname' heq

end Template

/-! ### The data of a résumé -/

open Template (AliasesAgree aliasSpelling tagText)

/-- Every object of a résumé has the same values under both spellings: all but the outermost one
have none. -/
theorem aliasesAgree_templateData (resume : Resume) :
    resume.templateData.Everywhere AliasesAgree := by
  refine resume.everywhere_templateData ?_ ⟨rfl, rfl⟩ ⟨rfl, rfl⟩ ?_
  · intro fields hnone
    constructor
    · rw [hnone "Profile" (by simp [reservedNames]), hnone "profile" (by simp [reservedNames])]
    · rw [hnone "workExperience" (by simp [reservedNames]),
        hnone "work_experience" (by simp [reservedNames])]
  · intro fields hfields
    obtain rfl := Json.obj.inj hfields
    simp [AliasesAgree, Json.Fields.get?_ofList, Json.Fields.get?_cons]

/-- **The spellings of a name are interchangeable.** Writing the other spelling in all tags of a
template that does not use it already changes nothing in the template but these names, and neither
the outcome of a render nor the number of its scans. -/
theorem renderResume_aliasSpelling (template : String)
    (h : ∀ placed ∈ Template.allTags template.toList,
      Template.firstName placed.tag.name ∉ ["Profile", "workExperience"])
    (limits : Template.Limits) (payload : Json) :
    Template.tokens (aliasSpelling template).toList =
        (Template.tokens template.toList).map (.rename Template.aliasPath Template.aliasPath) ∧
      renderResume limits (aliasSpelling template) payload = renderResume limits template payload ∧
      let data := (normalize payload).templateData
      ((Template.renderIn [.record data] (aliasSpelling template)).run limits 0).2 =
        ((Template.renderIn [.record data] template).run limits 0).2 := by
  have hstack : Template.Stack.AliasesAgree [.record (normalize payload).templateData] := by
    intro frame hframe
    obtain rfl := List.mem_singleton.mp hframe
    exact aliasesAgree_templateData _
  have hsame := Template.renderIn_aliasSpelling h hstack
  refine ⟨Template.tokens_aliasSpelling template, ?_, ?_⟩
  · rw [renderResume, renderResume, Template.render, Template.render, hsame]
  · show ((Template.renderIn _ _).run _ _).2 = _
    rw [hsame]

/-- Both names change, between their blanks, in a section and in a path inside it. -/
theorem renderResume_aliasSpelling_section :
    let template := tagText "# work_experience " ++ tagText "roleTitle" ++ ", " ++
      tagText " profile.name" ++ tagText "/work_experience"
    let payload : Json :=
      .obj [("profile", .obj [("name", .str "Ada")]),
        ("work_experience", .arr [.obj [("roleTitle", .str "Analyst")]])]
    (∀ placed ∈ Template.allTags template.toList,
        Template.firstName placed.tag.name ∉ ["Profile", "workExperience"]) ∧
      aliasSpelling template = tagText "# workExperience " ++ tagText "roleTitle" ++ ", " ++
        tagText " Profile.name" ++ tagText "/workExperience" ∧
      renderResume {} template payload = .ok "Analyst, Ada" ∧
      renderResume {} (aliasSpelling template) payload = .ok "Analyst, Ada" := by
  intro template payload
  have htags : ∀ placed ∈ Template.allTags template.toList,
      Template.firstName placed.tag.name ∉ ["Profile", "workExperience"] := by decide +kernel
  have hpage : renderResume {} template payload = .ok "Analyst, Ada" := by decide +kernel
  obtain ⟨-, hsame, -⟩ := renderResume_aliasSpelling template htags {} payload
  exact ⟨htags, by decide +kernel, hpage, hsame.trans hpage⟩

end Vitae
