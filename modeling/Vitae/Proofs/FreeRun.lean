import Mathlib.Control.Monad.Basic
import Vitae.Proofs.Cut
import Vitae.Proofs.Events
import Vitae.Template.Render

/-!
# Runs without limits

`Renders` is the run of a template that no limit stops, as a relation: which text it leaves and
which events happen on the way, in their order. Its rules say where an event happens. A tag is one
scan when the run comes to it; an opening tag is followed by one scan for each tag on the way to its
close tag (`Seeks`), whether or not it has one; a body is entered before anything in it is scanned,
once for each context. Nothing else is an event.

Every template has exactly one such run in every context (`exists_renders`, `Renders.unique`), and
it holds the value and the events of the computation `renderFrom`, by induction on the run
(`Renders.value_events`). So what a render does within limits can be read off its run:
`render_within_limits`.
-/

namespace Vitae.Template

/-! ### The rules -/

/-- `Seeks name nested t events found`: the search in `t` for the close tag of the section called
`name`, with `nested` sections of the same name open inside it, has these events; it finds the body
and the text after the close tag, or nothing. -/
inductive Seeks (name : String) :
    Nat → List Char → List Event → Option (List Char × List Char) → Prop where
  /-- There are no more tags. -/
  | exhausted {nested : Nat} {t : List Char} (h : cut t = none) : Seeks name nested t [] none
  /-- The tag opens a section of the same name. -/
  | opener {nested : Nat} {t : List Char} {c : Cut} {events : List Event}
      {found : Option (List Char × List Char)} (h : cut t = some c)
      (htag : c.tag.opens? = some name) (rest : Seeks name (nested + 1) c.after events found) :
      Seeks name nested t (.scan :: events) (found.map fun parts => (c.whole ++ parts.1, parts.2))
  /-- The tag closes a section of the same name that stands open inside. -/
  | inner {nested : Nat} {t : List Char} {c : Cut} {events : List Event}
      {found : Option (List Char × List Char)} (h : cut t = some c)
      (htag : c.tag = .sectionClose name) (rest : Seeks name nested c.after events found) :
      Seeks name (nested + 1) t (.scan :: events)
        (found.map fun parts => (c.whole ++ parts.1, parts.2))
  /-- The tag closes the section. -/
  | close {t : List Char} {c : Cut} (h : cut t = some c) (htag : c.tag = .sectionClose name) :
      Seeks name 0 t [.scan] (some (c.before, c.after))
  /-- The tag neither opens nor closes a section of this name. -/
  | other {nested : Nat} {t : List Char} {c : Cut} {events : List Event}
      {found : Option (List Char × List Char)} (h : cut t = some c)
      (hopen : c.tag.opens? ≠ some name) (hclose : c.tag ≠ .sectionClose name)
      (rest : Seeks name nested c.after events found) :
      Seeks name nested t (.scan :: events) (found.map fun parts => (c.whole ++ parts.1, parts.2))

mutual

/-- `Renders depth stack t html events`: rendering `t` in a context, as a body at this depth, leaves
the text `html` and has these events. -/
inductive Renders : Nat → Stack → List Char → String → List Event → Prop where
  /-- A text without a tag is copied. -/
  | copy {depth : Nat} {stack : Stack} {t : List Char} (h : cut t = none) :
      Renders depth stack t (String.ofList t) []
  /-- A tag that begins no section leaves what it shows. -/
  | plain {depth : Nat} {stack : Stack} {t : List Char} {c : Cut} {html : String}
      {events : List Event} (h : cut t = some c) (htag : c.tag.opens? = none)
      (rest : Renders depth stack c.after html events) :
      Renders depth stack t (String.ofList c.before ++ c.tag.shown stack ++ html) (.scan :: events)
  /-- An opening tag without a close tag leaves nothing. -/
  | unclosed {depth : Nat} {stack : Stack} {t : List Char} {c : Cut} {name html : String}
      {seen events : List Event} (h : cut t = some c) (htag : c.tag.opens? = some name)
      (search : Seeks name 0 c.after seen none) (rest : Renders depth stack c.after html events) :
      Renders depth stack t (String.ofList c.before ++ html) (.scan :: (seen ++ events))
  /-- A section leaves its body in each of its contexts, and the run goes on after its close tag. -/
  | closed {depth : Nat} {stack : Stack} {t body after : List Char} {c : Cut}
      {name inner html : String} {seen entered events : List Event} (h : cut t = some c)
      (htag : c.tag.opens? = some name) (search : Seeks name 0 c.after seen (some (body, after)))
      (bodies : RendersEach (depth + 1) (c.tag.contexts stack) body inner entered)
      (rest : Renders depth stack after html events) :
      Renders depth stack t (String.ofList c.before ++ inner ++ html)
        (.scan :: (seen ++ entered ++ events))

/-- `RendersEach depth contexts body html events`: a body is entered and rendered in one context
after another. -/
inductive RendersEach : Nat → List Stack → List Char → String → List Event → Prop where
  | nil {depth : Nat} {body : List Char} : RendersEach depth [] body "" []
  | cons {depth : Nat} {context : Stack} {contexts : List Stack} {body : List Char}
      {html others : String} {events later : List Event}
      (first : Renders depth context body html events)
      (rest : RendersEach depth contexts body others later) :
      RendersEach depth (context :: contexts) body (html ++ others)
        (.enter depth :: (events ++ later))

end

/-! ### The search for a close tag -/

/-- What a search found, as parts of the text and as their lengths. -/
def Marks (t : List Char) (passed : Nat) :
    Option (List Char × List Char) → Option SectionEnd → Prop
  | none, found => found = none
  | some (body, after), found => ∃ close, t = body ++ close ++ after ∧
      found = some ⟨passed + body.length, passed + (body ++ close).length⟩

/-- Behind a tag that is passed, the parts are found with the tag before the body. -/
theorem Marks.pass {t : List Char} {c : Cut} (h : cut t = some c) {passed : Nat}
    {found : Option (List Char × List Char)} {value : Option SectionEnd}
    (hrest : Marks c.after (passed + c.stop) found value) :
    Marks t passed (found.map fun parts => (c.whole ++ parts.1, parts.2)) value := by
  cases found with
  | none => exact hrest
  | some parts =>
      obtain ⟨body, after⟩ := parts
      obtain ⟨close, hafter, rfl⟩ := hrest
      refine ⟨close, ?_, ?_⟩
      · conv => lhs; rw [eq_whole_append h, hafter]
        simp only [List.append_assoc]
      · simp only [List.length_append, Cut.length_whole, Nat.add_assoc]

/-- A search has the events and the result of the computation `sectionEndFrom`. -/
theorem Seeks.value_events {name : String} {nested : Nat} {t : List Char} {events : List Event}
    {found : Option (List Char × List Char)} (h : Seeks name nested t events found) (passed : Nat) :
    (sectionEndFrom name nested passed t).events = events ∧
      Marks t passed found (sectionEndFrom name nested passed t).value := by
  induction h generalizing passed with
  | exhausted h =>
      rw [sectionEndFrom_of_none h]
      exact ⟨rfl, rfl⟩
  | opener h htag _ ih =>
      rw [sectionEndFrom_of_cut h, if_pos htag]
      obtain ⟨hevents, hfound⟩ := ih (passed + Cut.stop _)
      exact ⟨congrArg _ hevents, hfound.pass h⟩
  | inner h htag _ ih =>
      rw [sectionEndFrom_of_cut h, htag]
      obtain ⟨hevents, hfound⟩ := ih (passed + Cut.stop _)
      exact ⟨by simpa [Tag.opens?] using hevents, by simpa [Tag.opens?] using hfound.pass h⟩
  | @close t c h htag =>
      rw [sectionEndFrom_of_cut h, htag]
      refine ⟨by simp [Tag.opens?], '{' :: '{' :: (c.inner ++ ['}', '}']), ?_, ?_⟩
      · simpa [Cut.whole] using eq_whole_append h
      · simp [Tag.opens?, Cut.stop]
        omega
  | other h hopen hclose _ ih =>
      -- a close tag of another name is passed over like any tag
      rw [sectionEndFrom_of_cut h, if_neg hopen, if_neg hclose]
      obtain ⟨hevents, hfound⟩ := ih (passed + Cut.stop _)
      exact ⟨congrArg _ hevents, hfound.pass h⟩

/-- Every search ends. -/
theorem exists_seeks (name : String) (nested : Nat) (t : List Char) :
    ∃ events found, Seeks name nested t events found := by
  induction ht : t.length using Nat.strongRecOn generalizing nested t with
  | ind n ih =>
  subst ht
  cases h : cut t with
  | none => exact ⟨_, _, .exhausted h⟩
  | some c =>
      have further (nested : Nat) := ih _ (length_after_lt h) nested c.after rfl
      by_cases hopen : c.tag.opens? = some name
      · obtain ⟨events, found, hrest⟩ := further (nested + 1)
        exact ⟨_, _, .opener h hopen hrest⟩
      · by_cases hclose : c.tag = .sectionClose name
        · cases nested with
          | zero => exact ⟨_, _, .close h hclose⟩
          | succ nested =>
              obtain ⟨events, found, hrest⟩ := further nested
              exact ⟨_, _, .inner h hclose hrest⟩
        · obtain ⟨events, found, hrest⟩ := further nested
          exact ⟨_, _, .other h hopen hclose hrest⟩

/-- A search that finds nothing is one that gives nothing. -/
theorem Seeks.sectionEnd_none {name : String} {t : List Char} {events : List Event}
    (h : Seeks name 0 t events none) :
    (sectionEnd name t).events = events ∧ (sectionEnd name t).value = none :=
  h.value_events 0

/-- A search that finds a body gives the lengths at which the text is to be divided. -/
theorem Seeks.sectionEnd_some {name : String} {t body after : List Char} {events : List Event}
    (h : Seeks name 0 t events (some (body, after))) :
    (sectionEnd name t).events = events ∧ ∃ found, (sectionEnd name t).value = some found ∧
      t.take found.body = body ∧ t.drop found.stop = after := by
  obtain ⟨hevents, close, ht, hvalue⟩ := h.value_events 0
  refine ⟨hevents, _, hvalue, ?_, ?_⟩
  · show t.take (0 + body.length) = body
    rw [ht, Nat.zero_add, List.append_assoc]
    exact List.take_left
  · show t.drop (0 + (body ++ close).length) = after
    rw [ht, Nat.zero_add]
    exact List.drop_left

/-- The body that a search finds is no longer than the text, and neither is the text after it. -/
theorem Seeks.length_le {name : String} {nested : Nat} {t body after : List Char}
    {events : List Event} (h : Seeks name nested t events (some (body, after))) :
    body.length ≤ t.length ∧ after.length ≤ t.length := by
  obtain ⟨-, close, ht, -⟩ := h.value_events 0
  rw [ht]
  simp only [List.length_append]
  omega

/-! ### The run of a template -/

mutual

/-- A run has the value and the events of the computation `renderFrom`. -/
theorem Renders.value_events : ∀ {depth : Nat} {stack : Stack} {t : List Char} {html : String}
    {events : List Event}, Renders depth stack t html events → ∀ out : String,
      (renderFrom depth stack out t).value = out ++ html ∧
        (renderFrom depth stack out t).events = events
  | _, _, _, _, _, .copy h, out => by
      rw [renderFrom_of_none h]
      exact ⟨rfl, rfl⟩
  | _, stack, _, _, _, @Renders.plain _ _ _ c _ _ h htag rest, out => by
      obtain ⟨hvalue, hevents⟩ :=
        rest.value_events (out ++ String.ofList c.before ++ c.tag.shown stack)
      rw [renderFrom_of_cut h, htag]
      refine ⟨?_, congrArg _ hevents⟩
      rw [Metered.value_scan, hvalue]
      simp only [String.append_assoc]
  | _, _, _, _, _, @Renders.unclosed _ _ _ c _ _ _ _ h htag search rest, out => by
      obtain ⟨hvalue, hevents⟩ := rest.value_events (out ++ String.ofList c.before)
      obtain ⟨hseen, hnone⟩ := search.sectionEnd_none
      rw [renderFrom_of_cut h, htag]
      simp only [Metered.value_scan, Metered.events_scan, Metered.value_bind, Metered.events_bind,
        hnone, hseen, hvalue, hevents, String.append_assoc, and_self]
  | _, _, _, _, _, @Renders.closed _ _ _ _ _ c _ inner _ _ _ _ h htag search bodies rest, out => by
      obtain ⟨hinner, hentered⟩ := bodies.value_events (out ++ String.ofList c.before)
      obtain ⟨hvalue, hevents⟩ := rest.value_events (out ++ String.ofList c.before ++ inner)
      obtain ⟨hseen, found, hfound, hbody, hafter⟩ := search.sectionEnd_some
      rw [renderFrom_of_cut h, htag]
      simp only [Metered.value_scan, Metered.events_scan, Metered.value_bind, Metered.events_bind,
        hfound, hseen, hbody, hafter, hinner, hentered, hvalue, hevents, List.append_assoc,
        and_true]
      simp only [String.append_assoc]

/-- The bodies of a section, in the same way. -/
theorem RendersEach.value_events : ∀ {depth : Nat} {contexts : List Stack} {body : List Char}
    {html : String} {events : List Event}, RendersEach depth contexts body html events →
      ∀ out : String,
        (contexts.foldlM (fun out context =>
          Metered.enter depth fun _ => renderFrom depth context out body) out).value = out ++ html ∧
        (contexts.foldlM (fun out context =>
          Metered.enter depth fun _ => renderFrom depth context out body) out).events = events
  | _, _, _, _, _, .nil, _ => ⟨by simp, by simp⟩
  | _, _, _, _, _, @RendersEach.cons _ _ _ _ html _ _ _ first rest, out => by
      obtain ⟨hvalue, hevents⟩ := first.value_events out
      obtain ⟨hothers, hlater⟩ := rest.value_events (out ++ html)
      simp only [List.foldlM_cons, Metered.value_bind, Metered.events_bind, Metered.value_enter,
        Metered.events_enter, hvalue, hevents, hothers, hlater, String.append_assoc,
        List.cons_append, and_self]

end

/-- Every template has a run. -/
theorem exists_renders (depth : Nat) (stack : Stack) (t : List Char) :
    ∃ html events, Renders depth stack t html events := by
  induction ht : t.length using Nat.strongRecOn generalizing depth stack t with
  | ind n ih =>
  subst ht
  cases h : cut t with
  | none => exact ⟨_, _, .copy h⟩
  | some c =>
      have hafter := length_after_lt h
      cases htag : c.tag.opens? with
      | none =>
          obtain ⟨html, events, hrest⟩ := ih _ hafter depth stack c.after rfl
          exact ⟨_, _, .plain h htag hrest⟩
      | some name =>
          obtain ⟨seen, found, hsearch⟩ := exists_seeks name 0 c.after
          cases found with
          | none =>
              obtain ⟨html, events, hrest⟩ := ih _ hafter depth stack c.after rfl
              exact ⟨_, _, .unclosed h htag hsearch hrest⟩
          | some parts =>
              obtain ⟨body, after⟩ := parts
              obtain ⟨hlenBody, hlenAfter⟩ := hsearch.length_le
              -- the body runs in each of the contexts, whatever their number
              have hbodies : ∀ contexts : List Stack, ∃ inner entered,
                  RendersEach (depth + 1) contexts body inner entered := by
                intro contexts
                induction contexts with
                | nil => exact ⟨_, _, .nil⟩
                | cons context contexts ihc =>
                    obtain ⟨html, events, hfirst⟩ :=
                      ih _ (Nat.lt_of_le_of_lt hlenBody hafter) (depth + 1) context body rfl
                    obtain ⟨others, later, hothers⟩ := ihc
                    exact ⟨_, _, .cons hfirst hothers⟩
              obtain ⟨inner, entered, hinner⟩ := hbodies (c.tag.contexts stack)
              obtain ⟨html, events, hrest⟩ :=
                ih _ (Nat.lt_of_le_of_lt hlenAfter hafter) depth stack after rfl
              exact ⟨_, _, .closed h htag hsearch hinner hrest⟩

/-- A template has no more than one run. -/
theorem Renders.unique {depth : Nat} {stack : Stack} {t : List Char} {html html' : String}
    {events events' : List Event} (h : Renders depth stack t html events)
    (h' : Renders depth stack t html' events') : html' = html ∧ events' = events := by
  obtain ⟨hvalue, hevents⟩ := h.value_events ""
  obtain ⟨hvalue', hevents'⟩ := h'.value_events ""
  exact ⟨by simpa using hvalue'.symm.trans hvalue, hevents'.symm.trans hevents⟩

/-! ### What a run decides -/

/-- Whether events stay within limits: no more scans than may be made, and no depth beyond the
greatest one. -/
def Limits.Within (limits : Limits) (events : List Event) : Prop :=
  events.count .scan ≤ limits.maxTagScans ∧ ∀ depth, .enter depth ∈ events → depth ≤ limits.maxDepth

/-- Wider limits hold whatever narrower ones hold. -/
theorem Limits.Within.mono {limits wider : Limits} {events : List Event} (h : limits.Within events)
    (hscans : limits.maxTagScans ≤ wider.maxTagScans) (hdepth : limits.maxDepth ≤ wider.maxDepth) :
    wider.Within events :=
  ⟨Nat.le_trans h.1 hscans, fun depth hmem => Nat.le_trans (h.2 depth hmem) hdepth⟩

/-- The first event that breaks a limit, with its error: the scan after as many scans as may be
made, or an entry deeper than the greatest depth, when all events before it stay within the limits.
-/
inductive FirstBreach (limits : Limits) (events : List Event) : LimitError → Prop where
  | scan {before after : List Event} (h : events = before ++ .scan :: after)
      (hbefore : limits.Within before) (hfull : before.count .scan = limits.maxTagScans) :
      FirstBreach limits events (.tagScans limits.maxTagScans)
  | enter {before after : List Event} {depth : Nat} (h : events = before ++ .enter depth :: after)
      (hbefore : limits.Within before) (hdeep : limits.maxDepth < depth) :
      FirstBreach limits events (.depth limits.maxDepth)

theorem Limits.allow_zero_iff {limits : Limits} {events : List Event} :
    limits.Allow 0 events ↔ limits.Within events := by
  unfold Limits.Allow Limits.Within
  rw [Nat.zero_add]
  refine and_congr_left' ⟨fun h => ?_, fun h _ => h⟩
  by_cases hmem : Event.scan ∈ events
  · exact h hmem
  · rw [List.count_eq_zero_of_not_mem hmem]
    exact Nat.zero_le _

theorem Limits.breach?_zero_iff {limits : Limits} {events : List Event} {e : LimitError} :
    limits.breach? 0 events = some e ↔ FirstBreach limits events e := by
  rw [breach?_eq_some_iff]
  constructor
  · rintro ⟨before, event, after, h, hallow, hrefuse⟩
    have hbefore := allow_zero_iff.mp hallow
    cases event with
    | scan =>
        simp only [refuses?, Nat.zero_add, Option.ite_none_right_eq_some, Option.some.injEq]
          at hrefuse
        obtain ⟨hfull, rfl⟩ := hrefuse
        exact .scan h hbefore (Nat.le_antisymm hbefore.1 (Nat.lt_succ_iff.mp hfull))
    | enter depth =>
        simp only [refuses?, Option.ite_none_right_eq_some, Option.some.injEq] at hrefuse
        obtain ⟨hdeep, rfl⟩ := hrefuse
        exact .enter h hbefore hdeep
  · rintro (⟨h, hbefore, hfull⟩ | ⟨h, hbefore, hdeep⟩)
    · exact ⟨_, _, _, h, allow_zero_iff.mpr hbefore, by simp [refuses?, hfull]⟩
    · exact ⟨_, _, _, h, allow_zero_iff.mpr hbefore, by simp [refuses?, hdeep]⟩

/-- **Limits only cut a render short.** A template has one run in each context, and this run decides
what a render gives under any limits: the text of the run when all its events stay within the
limits, and otherwise the error of the first event that breaks one. So a text rendered within limits
is also rendered within wider ones. -/
theorem render_within_limits (stack : Stack) (template : String) :
    ∃ html events, Renders 0 stack template.toList html events ∧
      (∀ html' events', Renders 0 stack template.toList html' events' →
        html' = html ∧ events' = events) ∧
      (∀ (limits : Limits) (out : String),
        ((renderIn stack template).run limits 0).1 = .ok out ↔ limits.Within events ∧ out = html) ∧
      (∀ (limits : Limits) (e : LimitError),
        ((renderIn stack template).run limits 0).1 = .error e ↔ FirstBreach limits events e) ∧
      ∀ (limits wider : Limits) (out : String), limits.maxTagScans ≤ wider.maxTagScans →
        limits.maxDepth ≤ wider.maxDepth → ((renderIn stack template).run limits 0).1 = .ok out →
          ((renderIn stack template).run wider 0).1 = .ok out := by
  obtain ⟨html, events, hrun⟩ := exists_renders 0 stack template.toList
  obtain ⟨hvalue, hevents⟩ := hrun.value_events ""
  rw [String.empty_append] at hvalue
  have hok (limits : Limits) (out : String) :
      ((renderIn stack template).run limits 0).1 = .ok out ↔ limits.Within events ∧ out = html := by
    rw [Metered.run_eq_ok_iff, renderIn, hevents, hvalue, Limits.allow_zero_iff]
  refine ⟨html, events, hrun, fun _ _ h' => hrun.unique h', hok, ?_, ?_⟩
  · intro limits e
    rw [Metered.run_eq_error_iff, renderIn, hevents, Limits.breach?_zero_iff]
  · intro limits wider out hscans hdepth h
    obtain ⟨hwithin, rfl⟩ := (hok limits out).mp h
    exact (hok wider _).mpr ⟨hwithin.mono hscans hdepth, rfl⟩

/-- A section needs two scans and a depth of one; without the depth its body is the first breach. -/
theorem render_within_limits_section :
    ((renderIn [.record (.obj [("a", .bool true)])]
        (tagText "#a" ++ "x" ++ tagText "/a")).run ⟨2, 1⟩ 0).1 = .ok "x" ∧
      ((renderIn [.record (.obj [("a", .bool true)])]
        (tagText "#a" ++ "x" ++ tagText "/a")).run ⟨9, 4⟩ 0).1 = .ok "x" ∧
      ∃ html events,
        Renders 0 [.record (.obj [("a", .bool true)])]
          (tagText "#a" ++ "x" ++ tagText "/a").toList html events ∧
            FirstBreach ⟨2, 0⟩ events (.depth 0) := by
  obtain ⟨html, events, hrun, -, -, herror, hwider⟩ := render_within_limits
    [.record (.obj [("a", .bool true)])] (tagText "#a" ++ "x" ++ tagText "/a")
  have hok : ((renderIn [.record (.obj [("a", .bool true)])]
      (tagText "#a" ++ "x" ++ tagText "/a")).run ⟨2, 1⟩ 0).1 = .ok "x" := by decide +kernel
  have hdeep : ((renderIn [.record (.obj [("a", .bool true)])]
      (tagText "#a" ++ "x" ++ tagText "/a")).run ⟨2, 0⟩ 0).1 = .error (.depth 0) := by
    decide +kernel
  exact ⟨hok, hwider ⟨2, 1⟩ ⟨9, 4⟩ "x" (by decide) (by decide) hok, html, events, hrun,
    (herror ⟨2, 0⟩ _).mp hdeep⟩

end Vitae.Template
