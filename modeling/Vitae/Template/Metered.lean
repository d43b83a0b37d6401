import Vitae.Text.Numeral
/-!
# Metered computations

A render is limited in two ways: in the number of tags it looks at, and in how deep its section
bodies nest. `Metered α` is a computation of an `α` that announces both kinds of step before it
goes on, and knows nothing of limits. What a limit does to it is said once, in `Metered.run`, which
counts the scans against `Limits.maxTagScans`, compares each depth with `Limits.maxDepth`, and stops
at the first step that goes too far. The count goes on from one computation to the next, and the
scan that went too far is counted as well.

`run_bind` says that a computation in two parts is run one part after the other on the same count.
-/

namespace Vitae.Template

/-- The limits of a render. -/
structure Limits where
  /-- How many tags may be looked at. -/
  maxTagScans : Nat := 100000
  /-- How deep section bodies may nest. -/
  maxDepth : Nat := 64
  deriving Repr, DecidableEq

/-- The limit that a render went over. -/
inductive LimitError where
  /-- More tags were looked at than the limit. -/
  | tagScans (limit : Nat)
  /-- Section bodies nested deeper than the limit. -/
  | depth (limit : Nat)
  deriving Repr, DecidableEq

/-- The wording of an error. -/
def LimitError.message : LimitError → String
  | .tagScans limit => "render limit exceeded: more than " ++ Text.numeral limit ++ " tag scans"
  | .depth limit => "render limit exceeded: sections nested deeper than " ++ Text.numeral limit

/-- A computation that announces the tags it looks at and the section bodies it enters. -/
inductive Metered (α : Type) where
  /-- The computation is over. -/
  | done (value : α)
  /-- One more tag is looked at before the computation goes on. -/
  | scan (next : Unit → Metered α)
  /-- A section body at this depth is entered before the computation goes on. -/
  | enter (depth : Nat) (next : Unit → Metered α)

namespace Metered

variable {α β γ : Type}

/-- One computation after another that depends on its value. -/
def bind (x : Metered α) (f : α → Metered β) : Metered β :=
  match x with
  | .done a => f a
  | .scan next => .scan fun _ => (next ()).bind f
  | .enter depth next => .enter depth fun _ => (next ()).bind f

instance : Monad Metered where
  pure := .done
  bind := .bind

/-- Runs a computation within limits, when `used` tags were looked at before. Gives its value or
the limit it went over, and the number of tags looked at by then. -/
def run (limits : Limits) : Metered α → Nat → Except LimitError α × Nat
  | .done a, used => (.ok a, used)
  | .scan next, used =>
    if limits.maxTagScans < used + 1 then (.error (.tagScans limits.maxTagScans), used + 1)
    else run limits (next ()) (used + 1)
  | .enter depth next, used =>
    if limits.maxDepth < depth then (.error (.depth limits.maxDepth), used)
    else run limits (next ()) used

/-- The computation that looks at one tag. -/
def charge : Metered Unit := .scan fun _ => .done ()

theorem bind_eq_bind (x : Metered α) (f : α → Metered β) : (x >>= f) = x.bind f := rfl

@[simp] theorem done_bind (a : α) (f : α → Metered β) : (done a).bind f = f a := rfl

@[simp] theorem scan_bind (next : Unit → Metered α) (f : α → Metered β) :
    (scan next).bind f = scan fun _ => (next ()).bind f := rfl

@[simp] theorem enter_bind (depth : Nat) (next : Unit → Metered α) (f : α → Metered β) :
    (enter depth next).bind f = enter depth fun _ => (next ()).bind f := rfl

@[simp] theorem bind_done (x : Metered α) : x.bind done = x := by
  induction x with
  | done a => rfl
  | scan next ih => exact congrArg scan (funext fun u => ih u)
  | enter depth next ih => exact congrArg (enter depth) (funext fun u => ih u)

theorem bind_assoc (x : Metered α) (f : α → Metered β) (g : β → Metered γ) :
    (x.bind f).bind g = x.bind fun a => (f a).bind g := by
  induction x with
  | done a => rfl
  | scan next ih => exact congrArg scan (funext fun u => ih u)
  | enter depth next ih => exact congrArg (enter depth) (funext fun u => ih u)

instance : LawfulMonad Metered :=
  LawfulMonad.mk' Metered
    (fun x => bind_done x)
    (fun _ _ => rfl)
    (fun x f g => bind_assoc x f g)

theorem map_eq_bind (f : α → β) (x : Metered α) : f <$> x = x.bind fun a => .done (f a) :=
  map_eq_pure_bind f x

/-- Two computations in a row are run one after the other on one count of tags. -/
theorem run_bind (limits : Limits) (x : Metered α) (f : α → Metered β) (used : Nat) :
    (x.bind f).run limits used =
      match x.run limits used with
      | (.ok a, now) => (f a).run limits now
      | (.error e, now) => (.error e, now) := by
  induction x generalizing used with
  | done a => rfl
  | scan next ih =>
    simp only [scan_bind, run]
    split
    · rfl
    · exact ih () (used + 1)
  | enter depth next ih =>
    simp only [enter_bind, run]
    split
    · rfl
    · exact ih () used

end Metered

end Vitae.Template
