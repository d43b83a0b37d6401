import Vitae.Template.Metered

/-!
# The events of a metered computation

A `Metered` computation knows nothing of limits: it has a value, and on the way to it a sequence of
events, each of which is one more tag looked at or one more section body entered. Running it within
limits reads this sequence from the left and stops at the first event that a limit refuses.

`Limits.breach?` finds that event. `run_fst` says that it alone decides what a run gives;
`breach?_eq_none_iff` and `breach?_eq_some_iff` say what it finds by counting, without following the
sequence: a sequence is allowed when its scans stay within the one limit and its depths within the
other, and an event is the first breach when it is refused after an allowed beginning.
-/

namespace Vitae.Template

/-- One step of a computation that a limit may refuse. -/
inductive Event where
  /-- One more tag is looked at. -/
  | scan
  /-- A section body at this depth is entered. -/
  | enter (depth : Nat)
  deriving Repr, DecidableEq

/-! ### Value and events -/

namespace Metered

variable {α β : Type}

/-- What a computation gives when nothing stops it. -/
def value : Metered α → α
  | .done a => a
  | .scan next => (next ()).value
  | .enter _ next => (next ()).value

/-- The events of a computation that nothing stops, in order. -/
def events : Metered α → List Event
  | .done _ => []
  | .scan next => .scan :: (next ()).events
  | .enter depth next => .enter depth :: (next ()).events

@[simp] theorem value_done (a : α) : (done a).value = a := rfl

@[simp] theorem value_scan (next : Unit → Metered α) : (scan next).value = (next ()).value := rfl

@[simp] theorem value_enter (depth : Nat) (next : Unit → Metered α) :
    (enter depth next).value = (next ()).value := rfl

@[simp] theorem events_done (a : α) : (done a).events = [] := rfl

@[simp] theorem events_scan (next : Unit → Metered α) :
    (scan next).events = .scan :: (next ()).events := rfl

@[simp] theorem events_enter (depth : Nat) (next : Unit → Metered α) :
    (enter depth next).events = .enter depth :: (next ()).events := rfl

@[simp] theorem value_bind (x : Metered α) (f : α → Metered β) :
    (x >>= f).value = (f x.value).value := by
  rw [bind_eq_bind]
  induction x with
  | done a => rfl
  | scan next ih => exact ih ()
  | enter depth next ih => exact ih ()

/-- Two computations in a row have the events of the first and then those of the second. -/
@[simp] theorem events_bind (x : Metered α) (f : α → Metered β) :
    (x >>= f).events = x.events ++ (f x.value).events := by
  rw [bind_eq_bind]
  induction x with
  | done a => rfl
  | scan next ih => exact congrArg (Event.scan :: ·) (ih ())
  | enter depth next ih => exact congrArg (Event.enter depth :: ·) (ih ())

/-- What follows a computation is only asked about the value that the computation has. -/
theorem bind_congr_value (x : Metered α) {f g : α → Metered β} (h : f x.value = g x.value) :
    (x >>= f) = (x >>= g) := by
  rw [bind_eq_bind, bind_eq_bind]
  induction x with
  | done a => exact h
  | scan next ih => exact congrArg scan (funext fun _ => ih () h)
  | enter depth next ih => exact congrArg (enter depth) (funext fun _ => ih () h)

@[simp] theorem value_pure (a : α) : (pure a : Metered α).value = a := rfl

@[simp] theorem events_pure (a : α) : (pure a : Metered α).events = [] := rfl

/-- Bodies one after another announce their depth, each before what it announces itself. -/
theorem events_foldlM_enter {ι : Type} {depth : Nat} {body : α → ι → Metered α}
    {within : ι → List Event} (h : ∀ a i, (body a i).events = within i) (items : List ι) (a : α) :
    (items.foldlM (fun a i => enter depth fun _ => body a i) a).events =
      items.flatMap fun i => .enter depth :: within i := by
  induction items generalizing a with
  | nil => rfl
  | cons item rest ih =>
      rw [List.foldlM_cons, events_bind, events_enter, h, ih]
      rfl

end Metered

/-! ### The first event that a limit refuses -/

namespace Limits

/-- The limit that an event breaks when `used` tags were looked at before it. -/
def refuses? (limits : Limits) (used : Nat) : Event → Option LimitError
  | .scan => if limits.maxTagScans < used + 1 then some (.tagScans limits.maxTagScans) else none
  | .enter depth => if limits.maxDepth < depth then some (.depth limits.maxDepth) else none

/-- The first limit broken by a sequence of events when `used` tags were looked at before it. -/
def breach? (limits : Limits) (used : Nat) : List Event → Option LimitError
  | [] => none
  | event :: rest =>
      (limits.refuses? used event).or (limits.breach? (used + [event].count .scan) rest)

/-- A sequence of events that no limit stops: its scans, if there are any, and each of its depths
stay within their limits. -/
def Allow (limits : Limits) (used : Nat) (events : List Event) : Prop :=
  (.scan ∈ events → used + events.count .scan ≤ limits.maxTagScans) ∧
    ∀ depth, .enter depth ∈ events → depth ≤ limits.maxDepth

theorem allow_nil (limits : Limits) (used : Nat) : limits.Allow used [] := by
  simp [Allow]

/-- A sequence is allowed when its first event is not refused and the rest is allowed. -/
theorem allow_cons_iff {limits : Limits} {used : Nat} {event : Event} {rest : List Event} :
    limits.Allow used (event :: rest) ↔
      limits.refuses? used event = none ∧ limits.Allow (used + [event].count .scan) rest := by
  cases event with
  | scan =>
      simp only [Allow, refuses?, List.mem_cons, true_or, true_implies, List.count_cons_self,
        List.count_nil, ite_eq_right_iff, reduceCtorEq, imp_false, Nat.not_lt, false_or]
      constructor
      · rintro ⟨hscans, hdepths⟩
        exact ⟨by omega, fun _ => by omega, hdepths⟩
      · rintro ⟨hfirst, hscans, hdepths⟩
        refine ⟨?_, hdepths⟩
        -- what is allowed says nothing of the scans made so far unless there is a scan to come
        by_cases hmem : Event.scan ∈ rest
        · have := hscans hmem
          omega
        · rw [List.count_eq_zero_of_not_mem hmem]
          omega
  | enter depth =>
      have hcount : (Event.enter depth :: rest).count .scan = rest.count .scan :=
        List.count_cons_of_ne (by simp)
      simp only [Allow, refuses?, hcount, List.mem_cons, reduceCtorEq, false_or, Event.enter.injEq,
        ite_eq_right_iff, imp_false, Nat.not_lt]
      constructor
      · rintro ⟨hscans, hdepths⟩
        exact ⟨hdepths depth (.inl rfl), by simpa using hscans, fun d hd => hdepths d (.inr hd)⟩
      · rintro ⟨hfirst, hscans, hdepths⟩
        refine ⟨by simpa using hscans, ?_⟩
        rintro d (rfl | hd)
        · exact hfirst
        · exact hdepths d hd

/-- Events that are left out do no harm. -/
theorem Allow.sublist {limits : Limits} {used : Nat} {events fewer : List Event}
    (h : limits.Allow used events) (hfewer : fewer.Sublist events) : limits.Allow used fewer := by
  obtain ⟨hscans, hdepths⟩ := h
  refine ⟨fun hmem => ?_, fun depth hmem => hdepths depth (hfewer.subset hmem)⟩
  exact Nat.le_trans (Nat.add_le_add_left (hfewer.count_le _) used) (hscans (hfewer.subset hmem))

/-- There is no breach exactly in a sequence that is allowed. -/
theorem breach?_eq_none_iff {limits : Limits} {used : Nat} {events : List Event} :
    limits.breach? used events = none ↔ limits.Allow used events := by
  induction events generalizing used with
  | nil => exact iff_of_true rfl (allow_nil limits used)
  | cons event rest ih => rw [breach?, Option.or_eq_none_iff, ih, allow_cons_iff]

/-- The breach is the first event that is refused: what stands before it is allowed. -/
theorem breach?_eq_some_iff {limits : Limits} {used : Nat} {events : List Event} {e : LimitError} :
    limits.breach? used events = some e ↔
      ∃ before event after, events = before ++ event :: after ∧ limits.Allow used before ∧
        limits.refuses? (used + before.count .scan) event = some e := by
  induction events generalizing used with
  | nil => simp [breach?]
  | cons first rest ih =>
      rw [breach?, Option.or_eq_some_iff, ih]
      constructor
      · rintro (hfirst | ⟨hfirst, before, event, after, rfl, hallow, hrefuse⟩)
        · exact ⟨[], first, rest, rfl, allow_nil _ _, hfirst⟩
        · refine ⟨first :: before, event, after, rfl, allow_cons_iff.mpr ⟨hfirst, hallow⟩, ?_⟩
          rw [← hrefuse, Nat.add_assoc, ← List.count_append, List.singleton_append]
      · rintro ⟨before, event, after, hsplit, hallow, hrefuse⟩
        cases before with
        | nil =>
            obtain ⟨rfl, rfl⟩ := List.cons.inj hsplit
            exact .inl hrefuse
        | cons b before =>
            obtain ⟨rfl, rfl⟩ := List.cons.inj hsplit
            obtain ⟨hfirst, hrest⟩ := allow_cons_iff.mp hallow
            refine .inr ⟨hfirst, before, event, after, rfl, hrest, ?_⟩
            rw [← hrefuse, Nat.add_assoc, ← List.count_append, List.singleton_append]

end Limits

/-! ### Runs within limits -/

namespace Metered

variable {α : Type}

/-- What a run gives is decided by the first breach among the events. -/
theorem run_fst (limits : Limits) (x : Metered α) (used : Nat) :
    (x.run limits used).1 = (limits.breach? used x.events).elim (.ok x.value) .error := by
  induction x generalizing used with
  | done a => rfl
  | scan next ih =>
      simp only [run, events_scan, Limits.breach?, Limits.refuses?]
      split
      · rfl
      · exact ih () (used + 1)
  | enter depth next ih =>
      simp only [run, events_enter, Limits.breach?, Limits.refuses?]
      split
      · rfl
      · exact ih () used

/-- A run ends well exactly when its events are allowed, and then with the value that it has
without limits. -/
theorem run_eq_ok_iff {limits : Limits} {x : Metered α} {used : Nat} {a : α} :
    (x.run limits used).1 = .ok a ↔ limits.Allow used x.events ∧ a = x.value := by
  rw [run_fst, ← Limits.breach?_eq_none_iff]
  cases h : limits.breach? used x.events with
  | none => simp [eq_comm]
  | some e => simp

/-- A run ends with the limit that the first breach names. -/
theorem run_eq_error_iff {limits : Limits} {x : Metered α} {used : Nat} {e : LimitError} :
    (x.run limits used).1 = .error e ↔ limits.breach? used x.events = some e := by
  rw [run_fst]
  cases h : limits.breach? used x.events with
  | none => simp
  | some e' => simp

end Metered

end Vitae.Template
