import Vitae.Proofs.Cut
import Vitae.Proofs.SharedStack
import Vitae.Template.Session

/-!
# What a session keeps and what it spends

A session renders one template after another in one context and on one count of tags. Two facts say
what this comes to. A render is of no consequence to the context: after any steps the context is
what the frames put on and taken off make of it (`Stack.after`). And a count that is under way is no
different from a new count towards what is left of the limit (`Metered.run_left`): a run stops at
the same step, has looked at as many tags since, and names another number only in its error.

`session_step_law` puts the two together for a step of any session. It speaks of two machines at
once: of `Session.run`, and of the machine that has only one stack of frames and works on it with
`renderOn` (`Shared.run`), where every frame put on within a render has to be taken off again.
-/

namespace Vitae.Template

/-! ### A count that is under way -/

/-- What is left of some limits when tags were looked at before. -/
def Limits.left (limits : Limits) (used : Nat) : Limits :=
  { limits with maxTagScans := limits.maxTagScans - used }

/-- The same error, with this number for the limit on scans. -/
def LimitError.outOf (maxTagScans : Nat) : LimitError → LimitError
  | .tagScans _ => .tagScans maxTagScans
  | .depth limit => .depth limit

namespace Metered

variable {α : Type}

theorem run_left_add (limits : Limits) (x : Metered α) (used now : Nat) :
    x.run limits (used + now) =
      ((x.run (limits.left used) now).1.mapError (.outOf limits.maxTagScans),
        used + (x.run (limits.left used) now).2) := by
  induction x generalizing now with
  | done a => rfl
  | scan next ih =>
      -- the scan that goes over the limit is the one that goes over what is left of it
      have hfull : limits.maxTagScans < used + now + 1 ↔
          (limits.left used).maxTagScans < now + 1 := by
        simp only [Limits.left]
        omega
      simp only [run, hfull]
      split
      · rfl
      · exact ih () (now + 1)
  | enter depth next ih =>
      have hdeep : (limits.left used).maxDepth = limits.maxDepth := rfl
      simp only [run, hdeep]
      split
      · rfl
      · exact ih () now

/-- A run that begins with some tags on its count is a run that begins anew with what is left. -/
theorem run_left (limits : Limits) (x : Metered α) (used : Nat) :
    x.run limits used =
      ((x.run (limits.left used) 0).1.mapError (.outOf limits.maxTagScans),
        used + (x.run (limits.left used) 0).2) :=
  run_left_add limits x used 0

end Metered

/-- When all scans are spent, a template renders only if there is no tag to look at. -/
theorem exists_ok_iff_of_spent {limits : Limits} {used : Nat} (h : limits.maxTagScans ≤ used)
    (stack : Stack) (template : String) :
    (∃ html, ((renderIn stack template).run limits used).1 = .ok html) ↔
      ¬ HasTag template.toList := by
  rw [← cut_eq_none_iff, renderIn]
  cases hcut : cut template.toList with
  | none =>
      rw [renderFrom_of_none hcut]
      exact iff_of_true ⟨_, rfl⟩ rfl
  | some c =>
      rw [renderFrom_of_cut hcut, Metered.run, if_pos (by omega)]
      exact iff_of_false (by rintro ⟨html, hok⟩; cases hok) (by simp)

/-! ### The context of a session -/

/-- The context after some steps. Renders have no part in it. -/
def Stack.after (stack : Stack) : List Step → Stack
  | [] => stack
  | .push frame :: rest => Stack.after (frame :: stack) rest
  | .pop :: rest => Stack.after stack.tail rest
  | .render _ :: rest => Stack.after stack rest

namespace Session

/-- The session after some steps. -/
def after (session : Session) (steps : List Step) : Session :=
  steps.foldl (fun session step => (session.step step).2) session

theorem limits_step (session : Session) (step : Step) :
    (session.step step).2.limits = session.limits := by
  cases step <;> rfl

theorem stack_step (session : Session) (step : Step) :
    (session.step step).2.stack = session.stack.after [step] := by
  cases step <;> rfl

theorem limits_after (session : Session) (steps : List Step) :
    (session.after steps).limits = session.limits := by
  induction steps generalizing session with
  | nil => rfl
  | cons step rest ih => exact (ih (session.step step).2).trans (session.limits_step step)

/-- The frames of a session are those put on and not taken off. -/
theorem stack_after (session : Session) (steps : List Step) :
    (session.after steps).stack = session.stack.after steps := by
  induction steps generalizing session with
  | nil => rfl
  | cons step rest ih =>
      refine (ih (session.step step).2).trans ?_
      rw [session.stack_step]
      cases step <;> rfl

/-- Each step is taken from where the steps before it have led. -/
theorem getElem?_run (session : Session) (earlier later : List Step) (step : Step) :
    (session.run (earlier ++ step :: later))[earlier.length]? =
      some ((session.after earlier).step step) := by
  induction earlier generalizing session with
  | nil => rfl
  | cons first rest ih => exact ih (session.step first).2

/-- A render has the outcome of a new count towards what is left of the limit. -/
theorem step_render (session : Session) (template : String) :
    let anew := (renderIn session.stack template).run (session.limits.left session.used) 0
    session.step (.render template) =
      (.rendered (anew.1.mapError (.outOf session.limits.maxTagScans)),
        { session with used := session.used + anew.2 }) := by
  simp only [step]
  rw [Metered.run_left]

/-- What a session keeps besides its limits. -/
def shared (session : Session) : Shared := ⟨session.stack, session.used⟩

end Session

/-! ### Sessions on one shared context -/

namespace Shared

/-- Takes one step on the shared context. -/
def step (limits : Limits) (shared : Shared) : Step → Outcome × Shared
  | .push frame => (.pushed, { shared with stack := frame :: shared.stack })
  | .pop => (.popped !shared.stack.isEmpty, { shared with stack := shared.stack.tail })
  | .render template =>
    let (result, after) := (renderOn limits 0 "" template.toList).run.run shared
    (.rendered result, after)

/-- Takes steps in order on the shared context. -/
def run (limits : Limits) (shared : Shared) : List Step → List (Outcome × Shared)
  | [] => []
  | s :: rest =>
    let after := shared.step limits s
    after :: after.2.run limits rest

theorem step_eq (session : Session) (step : Step) :
    session.shared.step session.limits step =
      ((session.step step).1, (session.step step).2.shared) := by
  cases step with
  | push frame => rfl
  | pop => rfl
  | render template =>
      have hrun := renderOn_run session.limits 0 session.stack "" template.toList session.used
      simp only [step, Session.shared] at hrun ⊢
      rw [hrun]
      rfl

/-- The steps of a session come to the same on a shared context. -/
theorem run_eq (session : Session) (steps : List Step) :
    session.shared.run session.limits steps =
      (session.run steps).map fun entry => (entry.1, entry.2.shared) := by
  induction steps generalizing session with
  | nil => rfl
  | cons step rest ih =>
      have hrest := ih (session.step step).2
      rw [session.limits_step] at hrest
      simp only [run, Session.run, List.map_cons]
      rw [step_eq, hrest]

end Shared

/-- **The law of sessions.** After each step of a session the context is what the frames put on and
taken off make of it, also on the machine that has only one stack of frames. A render gives what a
new count of tags gives in this context towards what is left of the limit, and spends what that one
spends; when nothing is left it gives a text just for the templates without a tag. -/
theorem session_step_law (session : Session) (earlier later : List Step) (step : Step) :
    let before := session.after earlier
    let after := session.after (earlier ++ [step])
    ∃ outcome,
      (session.run (earlier ++ step :: later))[earlier.length]? = some (outcome, after) ∧
      (session.shared.run session.limits (earlier ++ step :: later))[earlier.length]? =
        some (outcome, after.shared) ∧
      after.stack = session.stack.after (earlier ++ [step]) ∧
      match step with
      | .push _ | .pop => after.used = before.used
      | .render template =>
        let anew := (renderIn (session.stack.after earlier) template).run
          (session.limits.left before.used) 0
        outcome = .rendered (anew.1.mapError (.outOf session.limits.maxTagScans)) ∧
        after.used = before.used + anew.2 ∧
        (session.limits.maxTagScans ≤ before.used →
          ((∃ html, outcome = .rendered (.ok html)) ↔ ¬ HasTag template.toList)) := by
  intro before after
  have hafter : after = (before.step step).2 := by
    simp only [after, before, Session.after, List.foldl_append, List.foldl_cons, List.foldl_nil]
  have hentry := session.getElem?_run earlier later step
  refine ⟨(before.step step).1, ?_, ?_, session.stack_after _, ?_⟩
  · rw [hentry, hafter]
  · rw [Shared.run_eq, List.getElem?_map, hentry, hafter]
    rfl
  · cases step with
    | push frame => rw [hafter]; rfl
    | pop => rw [hafter]; rfl
    | render template =>
        have hstack : before.stack = session.stack.after earlier := session.stack_after earlier
        have hlimits : before.limits = session.limits := session.limits_after earlier
        have hrender := before.step_render template
        rw [hstack, hlimits] at hrender
        refine ⟨?_, ?_, fun hspent => ?_⟩
        · rw [hrender]
        · rw [hafter, hrender]
        · rw [← exists_ok_iff_of_spent hspent (session.stack.after earlier)]
          simp only [Session.step, hstack, hlimits, Outcome.rendered.injEq]

/-- A section spends both scans of this session, and the template after it has a tag. -/
theorem session_step_law_spent :
    let session : Session := { limits := ⟨2, 1⟩, stack := [.record (.obj [("a", .bool true)])] }
    let first : Step := .render (tagText "#a" ++ "x" ++ tagText "/a")
    session.limits.maxTagScans ≤ (session.after [first]).used ∧
      ∃ outcome after,
        (session.run [first, .render (tagText "a"), .pop])[1]? = some (outcome, after) ∧
          ¬ ∃ html, outcome = .rendered (.ok html) := by
  intro session first
  have hspent : session.limits.maxTagScans ≤ (session.after [first]).used := by decide +kernel
  obtain ⟨outcome, hentry, -, -, -, -, hok⟩ :=
    session_step_law session [first] [.pop] (.render (tagText "a"))
  refine ⟨hspent, outcome, _, hentry, ?_⟩
  rw [hok hspent]
  exact not_not_intro ⟨[], ['a'], [], by decide⟩

end Vitae.Template
