import Mathlib.Data.List.Count
import Vitae.Proofs.Nesting
import Vitae.Proofs.Reference
import Vitae.Proofs.SectionText

/-!
# Sections and inverted sections

A section and an inverted section of the same name look at the value in different ways. The one goes
over the items of a list, however few they are, and asks of anything else whether it is markup, an
object, or a value that opens a section; the other asks only whether the value opens a section. They
agree in that a section has a context exactly where an inverted one has none
(`sectionContexts_eq_nil_iff`). So of two such sections in a row just one is rendered, in as many
contexts as a list has items and otherwise in one: `section_complement`.

What the body of a section leaves is compared with what the same text leaves as a template of its
own. A body lies one level deeper, and this is the only difference there is (`renderFrom_add`).
-/

namespace Vitae.Template

/-! ### Contexts of the one kind and of the other -/

/-- A section has as many contexts as a list has items, and one for any other value, if the value
opens a section at all. -/
theorem length_sectionContexts (value : Option Json) (stack : Stack) :
    (sectionContexts value stack).length =
      if Html.holds value then
        match value with
        | some (.arr items) => items.length
        | _ => 1
      else 0 := by
  cases value with
  | none => rfl
  | some value =>
      cases value with
      | arr items => cases items <;> simp [sectionContexts, Html.holds, Html.safe?]
      | obj fields =>
          simp only [sectionContexts]
          cases h : Html.safe? (.obj fields) with
          | none => simp [Html.holds, h]
          | some markup => by_cases hmarkup : markup = "" <;> simp [Html.holds, h, hmarkup]
      | _ => simp only [sectionContexts]; split <;> rfl

theorem sectionContexts_eq_nil_iff {value : Option Json} {stack : Stack} :
    sectionContexts value stack = [] ↔ invertedContexts value stack = [stack] := by
  rw [← List.length_eq_zero_iff, length_sectionContexts, invertedContexts]
  by_cases hholds : Html.holds value
  · rw [if_pos hholds, if_pos hholds]
    refine iff_of_false ?_ (by simp)
    cases value with
    | none => simp at hholds
    | some value =>
        cases value with
        | arr items =>
            -- a list opens a section when it has an item
            cases items with
            | nil => simp [Html.holds, Html.safe?] at hholds
            | cons item rest => exact Nat.succ_ne_zero _
        | _ => exact Nat.one_ne_zero
  · rw [if_neg hholds, if_neg hholds]
    exact iff_of_true rfl rfl

/-! ### A body as a template of its own -/

/-- An event so many levels deeper. -/
def Event.deeper (more : Nat) : Event → Event
  | .scan => .scan
  | .enter depth => .enter (depth + more)

theorem Event.deeper_injective (more : Nat) : Function.Injective (Event.deeper more) := by
  intro event event' h
  cases event with
  | scan =>
      cases event' with
      | scan => rfl
      | enter depth' => cases h
  | enter depth =>
      cases event' with
      | scan => cases h
      | enter depth' =>
          obtain rfl : depth = depth' := Nat.add_right_cancel (Event.enter.inj h)
          rfl

/-- Limits that let events pass let them pass on a higher level as well. -/
theorem Limits.Allow.of_deeper {limits : Limits} {used more : Nat} {events : List Event}
    (h : limits.Allow used (events.map (Event.deeper more))) : limits.Allow used events := by
  obtain ⟨hscans, hdepths⟩ := h
  have hcount : (events.map (Event.deeper more)).count .scan = events.count .scan :=
    List.count_map_of_injective events _ (Event.deeper_injective more) .scan
  rw [hcount] at hscans
  refine ⟨fun hmem => hscans (List.mem_map_of_mem hmem), fun depth hmem => ?_⟩
  exact Nat.le_trans (Nat.le_add_right depth more) (hdepths _ (List.mem_map_of_mem hmem))

namespace Metered

variable {α β : Type}

/-- A computation with all its bodies so many levels deeper. -/
def deeper (more : Nat) : Metered α → Metered α
  | .done a => .done a
  | .scan next => .scan fun u => (next u).deeper more
  | .enter depth next => .enter (depth + more) fun u => (next u).deeper more

theorem events_deeper (more : Nat) (x : Metered α) :
    (x.deeper more).events = x.events.map (Event.deeper more) := by
  induction x with
  | done a => rfl
  | scan next ih => exact congrArg (Event.scan :: ·) (ih ())
  | enter depth next ih => exact congrArg (Event.enter (depth + more) :: ·) (ih ())

theorem deeper_bind (more : Nat) (x : Metered α) (f : α → Metered β) :
    (x >>= f).deeper more = x.deeper more >>= fun a => (f a).deeper more := by
  rw [bind_eq_bind, bind_eq_bind]
  induction x with
  | done a => rfl
  | scan next ih => exact congrArg scan (funext fun u => ih u)
  | enter depth next ih => exact congrArg (enter (depth + more)) (funext fun u => ih u)

theorem deeper_foldlM {ι : Type} (more : Nat) (body : α → ι → Metered α) (items : List ι) (a : α) :
    (items.foldlM body a).deeper more = items.foldlM (fun a i => (body a i).deeper more) a := by
  induction items generalizing a with
  | nil => rfl
  | cons item rest ih => simp only [List.foldlM_cons, deeper_bind, ih]

/-- A computation that enters no body is the same at every level. -/
theorem deeper_eq_self {x : Metered α} (h : ∀ depth, .enter depth ∉ x.events) (more : Nat) :
    x.deeper more = x := by
  induction x with
  | done a => rfl
  | scan next ih =>
      refine congrArg scan (funext fun u => ih u fun depth hmem => ?_)
      exact h depth (List.mem_cons_of_mem _ hmem)
  | enter depth next ih => exact absurd List.mem_cons_self (h depth)

/-- No computation goes over all limits. -/
theorem exists_run_ok (x : Metered α) (used : Nat) :
    ∃ limits a, (x.run limits used).1 = .ok a := by
  obtain ⟨depth, hdepth⟩ := exists_greatest_depth x.events
  refine ⟨⟨used + x.events.count .scan, depth⟩, x.value, run_eq_ok_iff.mpr ⟨⟨?_, ?_⟩, rfl⟩⟩
  · exact fun _ => Nat.le_refl _
  · exact (hdepth depth).mpr (Nat.le_refl depth)

end Metered

/-- A text is rendered deeper as it is rendered higher up. -/
theorem renderFrom_add (depth more : Nat) (stack : Stack) (out : String) (t : List Char) :
    renderFrom (depth + more) stack out t = (renderFrom depth stack out t).deeper more := by
  induction ht : t.length using Nat.strongRecOn generalizing depth stack out t with
  | ind n ih =>
  subst ht
  cases h : cut t with
  | none => rw [renderFrom_of_none h, renderFrom_of_none h]; rfl
  | some c =>
      have hafter := length_after_lt h
      rw [renderFrom_of_cut h, renderFrom_of_cut h]
      refine congrArg Metered.scan (funext fun _ => ?_)
      cases c.tag.opens? with
      | none => exact ih _ hafter depth stack _ c.after rfl
      | some name =>
          have hsearch := Metered.deeper_eq_self
            (fun depth => enter_not_mem_events_sectionEnd depth name c.after) more
          dsimp only
          rw [Metered.deeper_bind, hsearch]
          congr 1
          funext found
          cases found with
          | none => exact ih _ hafter depth stack _ c.after rfl
          | some found =>
              have hbody := length_take_after_lt h found.body
              have hrest := length_drop_after_lt h found.stop
              dsimp only
              rw [Metered.deeper_bind, Metered.deeper_foldlM]
              simp only [Metered.deeper, ← ih _ hbody _ _ _ _ rfl, ← ih _ hrest _ _ _ _ rfl,
                Nat.add_right_comm]

/-- A body leaves, behind what stands before it, what it leaves as a template. -/
theorem value_renderFrom (depth : Nat) (stack : Stack) (out template : String) :
    (renderFrom depth stack out template.toList).value =
      out ++ (renderIn stack template).value := by
  rw [renderFrom_eq_renderTokens, value_renderTokens, value_renderIn]

/-- Limits that let the bodies of a section pass let each of them pass as a template. -/
theorem Limits.Allow.of_bodies {limits : Limits} {used depth : Nat} {contexts : List Stack}
    {body out : String}
    (h : limits.Allow used (contexts.foldlM (fun out context =>
      Metered.enter (depth + 1) fun _ =>
        renderFrom (depth + 1) context out body.toList) out).events)
    {context : Stack} (hmem : context ∈ contexts) :
    ((renderIn context body).run limits used).1 = .ok (renderIn context body).value := by
  have hevents (out : String) (context : Stack) :
      (renderFrom (depth + 1) context out body.toList).events =
        (renderIn context body).events.map (Event.deeper (depth + 1)) := by
    have hdeeper := renderFrom_add 0 (depth + 1) context "" body.toList
    rw [Nat.zero_add] at hdeeper
    rw [events_renderFrom, hdeeper, Metered.events_deeper]
    rfl
  rw [Metered.events_foldlM_enter hevents, List.flatMap_def] at h
  have hallow := h.sublist ((List.sublist_cons_self ..).trans
    (List.sublist_flatten_of_mem (List.mem_map_of_mem hmem)))
  exact Metered.run_eq_ok_iff.mpr ⟨hallow.of_deeper, rfl⟩

/-! ### Two sections of one name -/

/-- The two sections are rendered one after the other. -/
theorem renderIn_sectionTexts {name body other : String} (hname : IsName name)
    (hbody : IsBody name body.toList) (hother : IsBody name other.toList) (stack : Stack) :
    ∃ n m, renderIn stack (sectionText "#" name body ++ sectionText "^" name other) =
      .scans n (do
        let bodies ← (sectionContexts (stack.resolve? name) stack).foldlM (fun out context =>
          .enter 1 fun _ => renderFrom 1 context out body.toList) ""
        .scans m ((invertedContexts (stack.resolve? name) stack).foldlM (fun out context =>
          .enter 1 fun _ => renderFrom 1 context out other.toList) bodies)) := by
  obtain ⟨hopen, hinverted, -⟩ := hname.ofInner
  refine ⟨tagCount (tokens body.toList) + 2, tagCount (tokens other.toList) + 2, ?_⟩
  rw [renderIn, String.toList_append,
    renderFrom_sectionText hname hbody (by decide) hopen rfl 0 stack ""]
  simp only [renderFrom_sectionText_nil hname hother (by decide) hinverted rfl]
  rfl

/-- **Of a section and an inverted section one is rendered.** In a template that has a section and
an inverted section of the same name in a row, one of the two bodies is rendered and the other
leaves nothing. If the value of the name opens a section, it is the first: once for each item of a
list, and once for anything else, which is at least once. Otherwise it is the second, once, in the
context as it is. The bodies leave what they leave as templates, within the same limits; and there
are limits within which all this comes to its end. -/
theorem section_complement (stack : Stack) (name body other : String) (hname : IsName name)
    (hbody : IsBody name body.toList) (hother : IsBody name other.toList) :
    let template := sectionText "#" name body ++ sectionText "^" name other
    let value := stack.resolve? name
    let contexts := sectionContexts value stack
    (Html.holds value → contexts ≠ [] ∧
      contexts.length =
        match value with
        | some (.arr items) => items.length
        | _ => 1) ∧
    (∀ used, ∃ limits html, ((renderIn stack template).run limits used).1 = .ok html) ∧
    ∀ (limits : Limits) (used : Nat) (html : String),
      ((renderIn stack template).run limits used).1 = .ok html →
        if Html.holds value then
          ∃ pages, html = String.join pages ∧
            List.Forall₂ (fun context page =>
              ((renderIn context body).run limits used).1 = .ok page) contexts pages
        else ((renderIn stack other).run limits used).1 = .ok html := by
  intro template value contexts
  refine ⟨fun hholds => ?_, fun used => Metered.exists_run_ok _ used, fun limits used html h => ?_⟩
  · refine ⟨fun hnil => ?_, ?_⟩
    · have hinverted := sectionContexts_eq_nil_iff.mp hnil
      rw [invertedContexts, if_pos hholds] at hinverted
      cases hinverted
    · rw [length_sectionContexts, if_pos hholds]
  · obtain ⟨n, m, hrender⟩ := renderIn_sectionTexts hname hbody hother stack
    obtain ⟨hallow, rfl⟩ := Metered.run_eq_ok_iff.mp h
    rw [show renderIn stack template = _ from hrender] at hallow ⊢
    simp only [Metered.events_scans, Metered.events_bind, Metered.value_scans,
      Metered.value_bind] at hallow ⊢
    by_cases hholds : Html.holds value
    · have hnone : invertedContexts value stack = [] := if_pos hholds
      have hbodies := hallow.sublist
        ((List.sublist_append_left _ _).trans (List.sublist_append_right _ _))
      rw [if_pos hholds]
      refine ⟨contexts.map fun context => (renderIn context body).value, ?_, ?_⟩
      · rw [hnone, List.foldlM_nil, Metered.value_pure,
          value_foldlM_enter fun out context => value_renderFrom 1 context out body,
          String.empty_append]
      · rw [List.forall₂_map_right_iff, List.forall₂_same]
        exact fun context hmem => hbodies.of_bodies hmem
    · have hnone : contexts = [] :=
        sectionContexts_eq_nil_iff.mpr (if_neg hholds)
      have hone : invertedContexts value stack = [stack] := if_neg hholds
      have hbodies := hallow.sublist
        ((List.sublist_append_right _ _).trans
          ((List.sublist_append_right _ _).trans (List.sublist_append_right _ _)))
      rw [if_neg hholds, hbodies.of_bodies (hone ▸ List.mem_singleton_self stack),
        value_foldlM_enter fun out context => value_renderFrom 1 context out other, hone,
        show sectionContexts (stack.resolve? name) stack = [] from hnone]
      simp

/-- A list of two items, with an opening tag in the body that is not closed; and no value at all. -/
theorem section_complement_list :
    let body := tagText "." ++ tagText "#b" ++ ";"
    let template := sectionText "#" "a" body ++ sectionText "^" "a" "none"
    let stack : Stack := [.record (.obj [("a", .arr [.str "1", .str "2"])])]
    IsName "a" ∧ IsBody "a" body.toList ∧ IsBody "a" "none".toList ∧
      ((renderIn stack template).run ⟨20, 1⟩ 0).1 = .ok "1;2;" ∧
      (∃ pages, "1;2;" = String.join pages ∧
        List.Forall₂ (fun context page => ((renderIn context body).run ⟨20, 1⟩ 0).1 = .ok page)
          [.wrapped (.str "1") :: stack, .wrapped (.str "2") :: stack] pages) ∧
      ((renderIn [] template).run ⟨20, 1⟩ 0).1 = .ok "none" ∧
      ((renderIn [] "none").run ⟨20, 1⟩ 0).1 = .ok "none" := by
  intro body template stack
  have hname : IsName "a" := ⟨by decide, by decide⟩
  have hbody : IsBody "a" body.toList :=
    ⟨by decide +kernel, by decide +kernel, by decide +kernel⟩
  have hother : IsBody "a" "none".toList :=
    ⟨by decide +kernel, by decide +kernel, by decide +kernel⟩
  have hlist : ((renderIn stack template).run ⟨20, 1⟩ 0).1 = .ok "1;2;" := by decide +kernel
  have hmissing : ((renderIn [] template).run ⟨20, 1⟩ 0).1 = .ok "none" := by decide +kernel
  obtain ⟨-, -, hfirst⟩ := section_complement stack "a" body "none" hname hbody hother
  obtain ⟨-, -, hsecond⟩ := section_complement [] "a" body "none" hname hbody hother
  exact ⟨hname, hbody, hother, hlist, hfirst ⟨20, 1⟩ 0 _ hlist, hmissing,
    hsecond ⟨20, 1⟩ 0 _ hmissing⟩

end Vitae.Template
