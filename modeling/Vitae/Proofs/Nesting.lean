import Vitae.Proofs.FreeRun
import Vitae.Proofs.Offsets
import Vitae.Proofs.TopLevel

/-!
# How deep bodies nest

The sections that a render goes into depend on the data, and names may be found in ever new
contexts. What bounds the nesting is the template alone: a body stands between an opening tag and a
close tag, each of which takes up five bytes at least, so it is ten bytes shorter than the text that
it was found in (`Enters.byteCount_add_le`), and no deeper nesting than a tenth of the template
comes up (`Nests.byteCount_add_le`).

`Nests` says which texts a render comes to, in which contexts and how deep, without reference to the
computation; `mem_events_iff_nests` says that the depths of these texts are those that a render
announces. So they are what a limit is compared with: `nesting_bounded`.
-/

namespace Vitae.Template

open Text (byteCount)

/-! ### The texts that a render comes to -/

/-- `Enters stack t context body`: the scan of `t` comes to a section that it renders in the context
`stack`, and `body` is its body and `context` one of the contexts in which this is rendered. -/
inductive Enters (stack : Stack) (t : List Char) : Stack → List Char → Prop where
  | body {d : Dispatch} {found : SectionEnd} {context : Stack} (hd : d ∈ dispatches t)
      (hfound : d.cut.section? = some found) (hcontext : context ∈ d.cut.tag.contexts stack) :
      Enters stack t context (d.cut.after.take found.body)

/-- `Nests depth stack t context slice`: rendering `t` in the context `stack` comes to rendering
`slice` in `context`, with this number of sections around it. -/
inductive Nests : Nat → Stack → List Char → Stack → List Char → Prop where
  | here {stack : Stack} {t : List Char} : Nests 0 stack t stack t
  | inside {depth : Nat} {stack context inner : Stack} {t body slice : List Char}
      (hbody : Enters stack t context body) (h : Nests depth context body inner slice) :
      Nests (depth + 1) stack t inner slice

/-- The section at the first tag, and the sections behind what the scan passes there. -/
theorem enters_iff_of_cut {t : List Char} {c : Cut} (h : cut t = some c) {stack context : Stack}
    {body : List Char} :
    Enters stack t context body ↔
      (∃ found, c.section? = some found ∧ context ∈ c.tag.contexts stack ∧
        body = c.after.take found.body) ∨ Enters stack c.resume context body := by
  constructor
  · rintro ⟨hd, hfound, hcontext⟩
    rcases (mem_dispatches_iff h).mp hd with rfl | ⟨later, hlater, rfl⟩
    · exact .inl ⟨_, hfound, hcontext, rfl⟩
    · exact .inr (.body (d := later) hlater hfound hcontext)
  · rintro (⟨found, hfound, hcontext, rfl⟩ | @⟨later, found, _, hlater, hfound, hcontext⟩)
    · have hfirst : (⟨[], c⟩ : Dispatch) ∈ dispatches t := (mem_dispatches_iff h).mpr (.inl rfl)
      exact .body hfirst hfound hcontext
    · have hbehind : later.behind c.passed ∈ dispatches t :=
        (mem_dispatches_iff h).mpr (.inr ⟨later, hlater, rfl⟩)
      exact .body (d := later.behind c.passed) hbehind hfound hcontext

theorem not_enters_of_none {t : List Char} (h : cut t = none) {stack context : Stack}
    {body : List Char} : ¬ Enters stack t context body := by
  rintro ⟨hd, -, -⟩
  rw [dispatches_of_none h] at hd
  cases hd

/-! ### What a section takes up -/

/-- The search for the end of a section stops at a close tag of its name, and takes for its body
what stands before the tag. -/
theorem sectionEndFrom_eq_some {name : String} {nested passed : Nat} {t : List Char}
    {found : SectionEnd} (h : (sectionEndFrom name nested passed t).value = some found) :
    ∃ body inner after, t = body ++ '{' :: '{' :: (inner ++ '}' :: '}' :: after) ∧
      Tag.ofInner inner = .sectionClose name ∧ found.body = passed + body.length := by
  induction ht : t.length using Nat.strongRecOn generalizing nested passed t with
  | ind n ih =>
  subst ht
  cases hcut : cut t with
  | none =>
      rw [sectionEndFrom_of_none hcut] at h
      cases h
  | some c =>
      -- behind a tag that is passed, the close tag is that of the rest of the search
      have further {nested : Nat}
          (h : (sectionEndFrom name nested (passed + c.stop) c.after).value = some found) :
          ∃ body inner after, t = body ++ '{' :: '{' :: (inner ++ '}' :: '}' :: after) ∧
            Tag.ofInner inner = .sectionClose name ∧ found.body = passed + body.length := by
        obtain ⟨body, inner, after, hafter, hclose, hbody⟩ := ih _ (length_after_lt hcut) h rfl
        refine ⟨c.whole ++ body, inner, after, ?_, hclose, ?_⟩
        · rw [List.append_assoc, ← hafter, ← eq_whole_append hcut]
        · rw [hbody, List.length_append, Cut.length_whole, Nat.add_assoc]
      rw [sectionEndFrom_of_cut hcut, Metered.value_scan] at h
      split at h
      · exact further h
      · split at h
        · rename_i hclose
          cases nested with
          | zero =>
              obtain rfl := Option.some.inj h
              exact ⟨c.before, c.inner, c.after, eq_of_cut hcut, hclose, rfl⟩
          | succ nested => exact further h
        · exact further h

/-- Between the braces of a tag that is not empty there is something. -/
theorem byteCount_inner_pos {inner : List Char} (h : Tag.ofInner inner ≠ .empty) :
    0 < byteCount inner := by
  refine Nat.pos_of_ne_zero ?_
  intro hzero
  rw [Text.eq_nil_of_byteCount_eq_zero hzero] at h
  exact h rfl

/-- A tag that is not empty takes up five bytes and more. -/
theorem byteCount_tag {inner : List Char} (h : Tag.ofInner inner ≠ .empty)
    (front after : List Char) :
    byteCount front + 5 + byteCount after ≤
      byteCount (front ++ '{' :: '{' :: (inner ++ '}' :: '}' :: after)) := by
  have hinner := byteCount_inner_pos h
  have hopen : '{'.utf8Size = 1 := rfl
  have hclose : '}'.utf8Size = 1 := rfl
  simp only [Text.byteCount_append, Text.byteCount_cons, hopen, hclose]
  omega

/-- A body is ten bytes shorter than the text that it is found in. -/
theorem Enters.byteCount_add_le {stack context : Stack} {t body : List Char}
    (h : Enters stack t context body) : byteCount body + 10 ≤ byteCount t := by
  obtain @⟨d, found, _, hd, hfound, -⟩ := h
  obtain ⟨rest, rfl, hcut, -⟩ := front_of_mem_dispatches hd
  obtain ⟨name, htag, hsection⟩ := Option.bind_eq_some_iff.mp hfound
  obtain ⟨body, inner, after, hafter, hclose, hbody⟩ := sectionEndFrom_eq_some hsection
  have htake : d.cut.after.take found.body = body := by
    rw [hafter, hbody, Nat.zero_add]
    exact List.take_left
  have hopenTag : Tag.ofInner d.cut.inner ≠ .empty := by
    intro hempty
    rw [Cut.tag, hempty] at htag
    cases htag
  have hcloseTag : Tag.ofInner inner ≠ .empty := by
    rw [hclose]
    simp
  have hopening := byteCount_tag hopenTag d.cut.before d.cut.after
  have hclosing := byteCount_tag hcloseTag body after
  rw [← eq_of_cut hcut] at hopening
  rw [← hafter] at hclosing
  rw [htake, Text.byteCount_append]
  omega

/-- A text with sections around it leaves ten bytes to each of them. -/
theorem Nests.byteCount_add_le {depth : Nat} {stack context : Stack} {t slice : List Char}
    (h : Nests depth stack t context slice) : byteCount slice + 10 * depth ≤ byteCount t := by
  induction h with
  | here => exact Nat.le_refl _
  | inside hbody _ ih =>
      have := hbody.byteCount_add_le
      omega

/-! ### The depths that a render announces -/

namespace Metered

variable {α β : Type}

@[simp] theorem events_map (f : α → β) (x : Metered α) : (f <$> x).events = x.events := by
  rw [map_eq_pure_bind, events_bind, events_pure, List.append_nil]

end Metered

/-- What a render announces does not depend on what stands before it. -/
theorem events_renderFrom (depth : Nat) (stack : Stack) (out : String) (t : List Char) :
    (renderFrom depth stack out t).events = (renderFrom depth stack "" t).events := by
  conv => lhs; rw [← String.append_empty (s := out), renderFrom_append, Metered.events_map]

/-- The search for the end of a section announces nothing but scans. -/
theorem enter_not_mem_events_sectionEnd (depth : Nat) (name : String) (t : List Char) :
    .enter depth ∉ (sectionEnd name t).events := by
  have hend := sectionEndFrom_endsAt name 0 0 t
  rw [sectionEnd]
  cases hclose : closeAt? name 0 (tokens t) with
  | none =>
      rw [hclose] at hend
      rw [show sectionEndFrom name 0 0 t = _ from hend]
      simp
  | some i =>
      rw [hclose] at hend
      obtain ⟨body, stop, hsearch, -, -⟩ := hend
      rw [hsearch]
      simp

/-- A tag announces the depths of its bodies. -/
theorem mem_events_renderTag_iff {depth d : Nat} {stack : Stack} {out : String} {c : Cut} :
    .enter d ∈ (renderTag depth stack out c).events ↔
      ∃ found, c.section? = some found ∧ ∃ context ∈ c.tag.contexts stack,
        d = depth + 1 ∨
          .enter d ∈ (renderFrom (depth + 1) context "" (c.after.take found.body)).events := by
  rw [renderTag, Metered.events_scan, List.mem_cons]
  cases htag : c.tag.opens? with
  | none => simp [Cut.section?, htag]
  | some name =>
      simp only [Metered.events_bind, List.mem_append, enter_not_mem_events_sectionEnd, false_or,
        reduceCtorEq, Cut.section?_of_opens? htag]
      cases hfound : (sectionEnd name c.after).value with
      | none => simp
      | some found =>
          simp only [Option.some.injEq, exists_eq_left']
          have hevents (out : String) (context : Stack) :=
            events_renderFrom (depth + 1) context out (c.after.take found.body)
          rw [Metered.events_foldlM_enter hevents]
          simp only [List.mem_flatMap, List.mem_cons, Event.enter.injEq]

/-- A render announces the depth of each body that it enters, and what the body announces. -/
theorem mem_events_renderFrom_iff {depth d : Nat} {stack : Stack} {out : String} {t : List Char} :
    .enter d ∈ (renderFrom depth stack out t).events ↔
      ∃ context body, Enters stack t context body ∧
        (d = depth + 1 ∨ .enter d ∈ (renderFrom (depth + 1) context "" body).events) := by
  induction ht : t.length using Nat.strongRecOn generalizing out t with
  | ind n ih =>
  subst ht
  cases h : cut t with
  | none =>
      rw [renderFrom_of_none h]
      simp [not_enters_of_none h]
  | some c =>
      rw [renderFrom_eq_bind h, Metered.events_bind, List.mem_append, mem_events_renderTag_iff,
        ih _ (length_resume_lt h) rfl]
      simp only [enters_iff_of_cut h]
      constructor
      · rintro (⟨found, hfound, context, hcontext, hd⟩ | ⟨context, body, hbody, hd⟩)
        · exact ⟨context, _, .inl ⟨found, hfound, hcontext, rfl⟩, hd⟩
        · exact ⟨context, body, .inr hbody, hd⟩
      · rintro ⟨context, body, ⟨found, hfound, hcontext, rfl⟩ | hbody, hd⟩
        · exact .inl ⟨found, hfound, context, hcontext, hd⟩
        · exact .inr ⟨context, body, hbody, hd⟩

/-- The depths that a render announces are those of the texts that it comes to. -/
theorem mem_events_iff_nests {depth d : Nat} {stack : Stack} {out : String} {t : List Char} :
    .enter d ∈ (renderFrom depth stack out t).events ↔
      ∃ inner context slice, d = depth + (inner + 1) ∧ Nests (inner + 1) stack t context slice := by
  constructor
  · intro hmem
    induction hsize : byteCount t using Nat.strongRecOn generalizing depth stack out t with
    | ind n ih =>
    subst hsize
    obtain ⟨context, body, hbody, rfl | hd⟩ := mem_events_renderFrom_iff.mp hmem
    · exact ⟨0, context, body, rfl, .inside hbody .here⟩
    · have hless : byteCount body < byteCount t := by
        have := hbody.byteCount_add_le
        omega
      obtain ⟨inner, context', slice, rfl, hnests⟩ := ih _ hless hd rfl
      exact ⟨inner + 1, context', slice, by omega, .inside hbody hnests⟩
  · rintro ⟨inner, context, slice, rfl, hnests⟩
    induction inner generalizing depth stack out t with
    | zero =>
        cases hnests with
        | inside hbody _ => exact mem_events_renderFrom_iff.mpr ⟨_, _, hbody, .inl rfl⟩
    | succ inner ih =>
        cases hnests with
        | inside hbody h =>
            refine mem_events_renderFrom_iff.mpr ⟨_, _, hbody, .inr ?_⟩
            have hd : depth + (inner + 1 + 1) = depth + 1 + (inner + 1) := by omega
            rw [hd]
            exact ih h

/-! ### The limit on depths -/

namespace Metered

variable {α : Type} {limits : Limits} {x : Metered α} {used : Nat}

/-- Where a run goes over the limit on depths, it announced a greater one. -/
theorem exists_enter_of_run {limit : Nat} (h : (x.run limits used).1 = .error (.depth limit)) :
    ∃ depth, .enter depth ∈ x.events ∧ limits.maxDepth < depth := by
  obtain ⟨before, event, after, hsplit, -, hrefuse⟩ :=
    Limits.breach?_eq_some_iff.mp (run_eq_error_iff.mp h)
  cases event with
  | scan => simp [Limits.refuses?] at hrefuse
  | enter depth =>
      obtain ⟨hdeep, -⟩ := Option.ite_none_right_eq_some.mp hrefuse
      exact ⟨depth, by simp [hsplit], hdeep⟩

/-- Where there are scans enough for all of a computation, it goes over the limit on depths if it
announces a greater one. -/
theorem run_eq_depth {depth : Nat} (hscans : used + x.events.count .scan ≤ limits.maxTagScans)
    (hmem : .enter depth ∈ x.events) (hdeep : limits.maxDepth < depth) :
    (x.run limits used).1 = .error (.depth limits.maxDepth) := by
  cases hrun : (x.run limits used).1 with
  | ok a =>
      obtain ⟨⟨-, hdepths⟩, -⟩ := run_eq_ok_iff.mp hrun
      exact absurd (hdepths depth hmem) (Nat.not_le_of_lt hdeep)
  | error e =>
      obtain ⟨before, event, after, hsplit, -, hrefuse⟩ :=
        Limits.breach?_eq_some_iff.mp (run_eq_error_iff.mp hrun)
      cases event with
      | scan =>
          obtain ⟨hfull, -⟩ := Option.ite_none_right_eq_some.mp hrefuse
          rw [hsplit, List.count_append, List.count_cons_self] at hscans
          omega
      | enter d =>
          obtain ⟨-, he⟩ := Option.ite_none_right_eq_some.mp hrefuse
          rw [← Option.some.inj he]

end Metered

/-! ### Sections in sections -/

/-- Sections with an empty name, each of which is the body of the one around it. -/
def sectionNest : Nat → List Char
  | 0 => []
  | n + 1 => (tagText "#").toList ++ (sectionNest n ++ (tagText "/").toList)

theorem byteCount_sectionNest (n : Nat) : byteCount (sectionNest n) = 10 * n := by
  induction n with
  | zero => rfl
  | succ n ih =>
      have hopen : byteCount (tagText "#").toList = 5 := by decide
      have hclose : byteCount (tagText "/").toList = 5 := by decide
      rw [sectionNest, Text.byteCount_append, Text.byteCount_append, ih, hopen, hclose]
      omega

/-- The search for a close tag passes sections in sections without a change of its count. -/
theorem value_sectionEndFrom_sectionNest (n nested passed : Nat) (t : List Char) :
    (sectionEndFrom "" nested passed (sectionNest n ++ t)).value =
      (sectionEndFrom "" nested (passed + (sectionNest n).length) t).value := by
  induction n generalizing nested passed t with
  | zero => rfl
  | succ n ih =>
      have hopen (r : List Char) : cut ((tagText "#").toList ++ r) = some ⟨[], ['#'], r⟩ :=
        cut_tagText (by decide) r
      have hclose (r : List Char) : cut ((tagText "/").toList ++ r) = some ⟨[], ['/'], r⟩ :=
        cut_tagText (by decide) r
      have hopenTag : Tag.ofInner ['#'] = .sectionOpen "" := by decide
      have hcloseTag : Tag.ofInner ['/'] = .sectionClose "" := by decide
      rw [sectionNest, List.append_assoc, List.append_assoc, sectionEndFrom_of_cut (hopen _)]
      simp only [Cut.tag, hopenTag, Tag.opens?, if_true, Metered.value_scan]
      rw [ih, sectionEndFrom_of_cut (hclose _)]
      simp only [Cut.tag, hcloseTag, Tag.opens?, reduceCtorEq, if_true, if_false,
        Metered.value_scan]
      congr 2
      simp [Cut.stop, tagText]
      omega

theorem value_sectionEnd_sectionNest (n : Nat) :
    (sectionEnd "" (sectionNest n ++ (tagText "/").toList)).value =
      some ⟨(sectionNest n).length, (sectionNest n).length + 5⟩ := by
  have hclose : cut (tagText "/").toList = some ⟨[], ['/'], []⟩ := by decide
  have hcloseTag : Tag.ofInner ['/'] = .sectionClose "" := by decide
  rw [sectionEnd, value_sectionEndFrom_sectionNest, sectionEndFrom_of_cut hclose]
  simp [Cut.tag, hcloseTag, Tag.opens?, Cut.stop]

/-- In a context in which the empty name opens a section once, each section is gone into. -/
theorem enters_sectionNest {stack : Stack} (h : (Tag.sectionOpen "").contexts stack = [stack])
    (n : Nat) : Enters stack (sectionNest (n + 1)) stack (sectionNest n) := by
  let after := sectionNest n ++ (tagText "/").toList
  have hcut : cut (sectionNest (n + 1)) = some ⟨[], ['#'], after⟩ := cut_tagText (by decide) after
  have htag : (Cut.mk [] ['#'] after).tag = .sectionOpen "" := by
    show Tag.ofInner ['#'] = _
    decide
  have hfound : (Cut.mk [] ['#'] after).section? =
      some ⟨(sectionNest n).length, (sectionNest n).length + 5⟩ := by
    rw [Cut.section?, htag]
    exact value_sectionEnd_sectionNest n
  refine (enters_iff_of_cut hcut).mpr (.inl ⟨_, hfound, ?_, ?_⟩)
  · rw [htag, h]
    exact List.mem_singleton.mpr rfl
  · exact List.take_left.symm

theorem nests_sectionNest {stack : Stack} (h : (Tag.sectionOpen "").contexts stack = [stack])
    (n : Nat) : Nests n stack (sectionNest n) stack [] := by
  induction n with
  | zero => exact .here
  | succ n ih => exact .inside (enters_sectionNest h n) ih

/-- **Nesting is bounded by the template.** Every body that a render comes to is ten bytes shorter
than the text that it is found in, whatever the data. So a template has a run without any limit, and
a depth that the run announces is that of a text the render comes to and no more than a tenth of the
template. A limit on depths is never gone over where the template is shorter than ten bytes for each
depth allowed and ten more; and for each limit there is a template of just this length that goes
over it. -/
theorem nesting_bounded (stack : Stack) (template : String) :
    (∀ depth context slice, Nests depth stack template.toList context slice →
      byteCount slice + 10 * depth ≤ byteCount template.toList ∧
        ∀ inner body, Enters context slice inner body → byteCount body + 10 ≤ byteCount slice) ∧
      (∃ html events, Renders 0 stack template.toList html events ∧
        ∀ depth, .enter depth ∈ events ↔
          0 < depth ∧ ∃ context slice, Nests depth stack template.toList context slice) ∧
      (∀ (limits : Limits) (used : Nat),
        byteCount template.toList < 10 * (limits.maxDepth + 1) →
          ∀ limit, ((renderIn stack template).run limits used).1 ≠ .error (.depth limit)) ∧
      ∀ maxDepth, ∃ (deep : String) (data : Json) (scans : Nat),
        byteCount deep.toList = 10 * (maxDepth + 1) ∧
          ∀ limits : Limits, limits.maxDepth = maxDepth → scans ≤ limits.maxTagScans →
            render limits deep data = .error (.depth maxDepth) := by
  have hnests (depth : Nat) (stack : Stack) (t : List Char) (out : String) :
      .enter depth ∈ (renderFrom 0 stack out t).events ↔
        0 < depth ∧ ∃ context slice, Nests depth stack t context slice := by
    rw [mem_events_iff_nests]
    constructor
    · rintro ⟨inner, context, slice, rfl, h⟩
      exact ⟨by omega, context, slice, by rwa [Nat.zero_add]⟩
    · rintro ⟨hpos, context, slice, h⟩
      obtain ⟨inner, rfl⟩ := Nat.exists_eq_succ_of_ne_zero (Nat.ne_of_gt hpos)
      exact ⟨inner, context, slice, (Nat.zero_add _).symm, h⟩
  refine ⟨?_, ?_, ?_, ?_⟩
  · intro depth context slice h
    exact ⟨h.byteCount_add_le, fun inner body hbody => hbody.byteCount_add_le⟩
  · obtain ⟨html, events, hrun⟩ := exists_renders 0 stack template.toList
    refine ⟨html, events, hrun, ?_⟩
    rw [← (hrun.value_events "").2]
    exact fun depth => hnests ..
  · intro limits used hshort limit herror
    obtain ⟨depth, hmem, hdeep⟩ := Metered.exists_enter_of_run herror
    obtain ⟨-, context, slice, h⟩ := (hnests ..).mp hmem
    have := h.byteCount_add_le
    omega
  · intro maxDepth
    let data : Json := .obj [("", .bool true)]
    let deep := String.ofList (sectionNest (maxDepth + 1))
    have hcontexts : (Tag.sectionOpen "").contexts [.record data] = [[.record data]] := by rfl
    have hmem : .enter (maxDepth + 1) ∈ (renderIn [.record data] deep).events := by
      refine (hnests ..).mpr ⟨Nat.succ_pos _, [.record data], [], ?_⟩
      rw [String.toList_ofList]
      exact nests_sectionNest hcontexts (maxDepth + 1)
    refine ⟨deep, data, (renderIn [.record data] deep).events.count .scan, ?_, ?_⟩
    · rw [String.toList_ofList, byteCount_sectionNest]
    · rintro limits rfl hscans
      exact Metered.run_eq_depth (by omega) hmem (Nat.lt_succ_self _)

/-- Two sections, one in the other, take up twenty bytes, and the outer body ten of them: they are
never too deep for a limit of two, and always for one of one. -/
theorem nesting_bounded_pair :
    let template := tagText "#" ++ tagText "#" ++ tagText "/" ++ tagText "/"
    let body := (tagText "#" ++ tagText "/").toList
    let data : Json := .obj [("", .bool true)]
    let stack : Stack := [.record data]
    Nests 0 stack template.toList stack template.toList ∧ Enters stack template.toList stack body ∧
      byteCount body + 10 ≤ byteCount template.toList ∧
      byteCount template.toList < 10 * (2 + 1) ∧
      (∀ limit, ((renderIn stack template).run ⟨9, 2⟩ 0).1 ≠ .error (.depth limit)) ∧
      render ⟨9, 1⟩ template data = .error (.depth 1) := by
  intro template body data stack
  have hshort : byteCount template.toList < 10 * (2 + 1) := by decide
  have hbody : Enters stack template.toList stack body := by
    have htemplate : template.toList = sectionNest 2 := by decide
    have hsingle : body = sectionNest 1 := by decide
    rw [htemplate, hsingle]
    exact enters_sectionNest rfl 1
  obtain ⟨hsmaller, -, hnever, -⟩ := nesting_bounded stack template
  exact ⟨.here, hbody, (hsmaller 0 stack _ .here).2 stack body hbody, hshort,
    hnever ⟨9, 2⟩ 0 hshort, by decide +kernel⟩

end Vitae.Template
