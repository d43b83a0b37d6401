import Mathlib.Control.Monad.Basic
import Mathlib.Logic.Function.Iterate
import Vitae.Proofs.Reference

/-!
# The context at every moment of a render

`renderFrom` gives every body a context of its own, so it has no moments at which one could look at
the context. Here a render is a machine with a single context: `step` does the next piece of its
work, puts one frame on, or takes one off. When a limit is gone over, what is left of the work is
dropped piece by piece, but the frames that are on are still taken off.

`Moment.leads_text` says that this machine renders as `renderFrom` does, by induction on the text.
`Balanced` is the invariant of its steps: the context is the one at the start with frames on top
that fit their values, and the work ahead takes off just these. So what `.` names is the item of the
innermost loop over plain items, or what it named at the start.
-/

namespace Vitae.Template

/-! ### The frames of a section -/

/-- The frames under which the bodies of a section are rendered, one entry for each body; a body
without a frame is rendered in the context as it is. -/
def sectionFrames (value : Option Json) : List (Option Frame) :=
  match value with
  | some (.arr items) => items.map fun item => some (itemFrame item)
  | some (.obj fields) =>
    match Html.safe? (.obj fields) with
    | none => [some (.record (.obj fields))]
    | some _ => if Html.holds value then [none] else []
  | _ => if Html.holds value then [none] else []

/-- The frames of the section, of either kind, that begins with a tag. -/
def Tag.frames (tag : Tag) (stack : Stack) : List (Option Frame) :=
  match tag with
  | .sectionOpen name => sectionFrames (stack.resolve? name)
  | .invertedOpen name => if Html.holds (stack.resolve? name) then [] else [none]
  | _ => []

theorem sectionContexts_eq_map_frames (value : Option Json) (stack : Stack) :
    sectionContexts value stack = (sectionFrames value).map fun frame => frame.toList ++ stack := by
  have hsame : (if Html.holds value then [stack] else []) =
      (if Html.holds value then [none] else []).map fun frame => frame.toList ++ stack := by
    split <;> rfl
  cases value with
  | none => exact hsame
  | some value =>
      cases value with
      | arr items => simp [sectionContexts, sectionFrames]
      | obj fields =>
          simp only [sectionContexts, sectionFrames]
          cases Html.safe? (.obj fields) with
          | none => rfl
          | some markup => exact hsame
      | _ => exact hsame

/-- The contexts of a section are its frames on top of the context. -/
theorem contexts_eq_map_frames (tag : Tag) (stack : Stack) :
    tag.contexts stack = (tag.frames stack).map fun frame => frame.toList ++ stack := by
  cases tag with
  | sectionOpen name => exact sectionContexts_eq_map_frames _ stack
  | invertedOpen name =>
      simp only [Tag.contexts, Tag.frames, invertedContexts]
      split <;> simp
  | _ => rfl

/-- Whether a frame fits its value: the parts of a container have names, anything else is plain. -/
def Frame.Fits : Frame → Prop
  | .record value => isContainer value = true
  | .wrapped value => isContainer value = false

theorem itemFrame_fits (item : Json) : (itemFrame item).Fits := by
  cases item <;> simp [itemFrame, Frame.Fits, isContainer]

/-- A section puts a frame on for an item of its list, or for the record that it is over. -/
theorem Tag.mem_frames {tag : Tag} {stack : Stack} {frame : Frame}
    (h : some frame ∈ tag.frames stack) :
    (∃ name items, tag = .sectionOpen name ∧ stack.resolve? name = some (.arr items) ∧
      ∃ item ∈ items, frame = itemFrame item) ∨ ∃ fields, frame = .record (.obj fields) := by
  have hsame {c : Prop} [Decidable c] (hmem : some frame ∈ if c then [none] else []) : False := by
    split at hmem <;> simp at hmem
  cases tag with
  | sectionOpen name =>
      simp only [Tag.frames] at h
      unfold sectionFrames at h
      split at h
      · rename_i items hvalue
        obtain ⟨item, hitem, hframe⟩ := List.mem_map.mp h
        exact .inl ⟨name, items, rfl, hvalue, item, hitem, (Option.some.inj hframe).symm⟩
      · rename_i fields _
        split at h
        · exact .inr ⟨fields, by simpa using h⟩
        · exact (hsame h).elim
      · exact (hsame h).elim
  | invertedOpen name =>
      simp only [Tag.frames] at h
      split at h <;> simp at h
  | _ => cases h

/-- Every frame of a section fits its value. -/
theorem Tag.fits_of_mem_frames {tag : Tag} {stack : Stack} {frame : Frame}
    (h : some frame ∈ tag.frames stack) : frame.Fits := by
  obtain ⟨_, _, _, _, item, _, rfl⟩ | ⟨fields, rfl⟩ := Tag.mem_frames h
  · exact itemFrame_fits item
  · rfl

/-! ### The machine -/

/-- A piece of the work of a render. -/
inductive Task where
  /-- A text is rendered at this depth. -/
  | text (depth : Nat) (t : List Char)
  /-- A body is rendered at this depth, under a frame if it has one. -/
  | body (frame : Option Frame) (depth : Nat) (t : List Char)
  /-- The depth of a body is compared with the limit before the body is rendered. -/
  | enter (depth : Nat) (t : List Char)
  /-- The innermost frame is taken off. -/
  | leave

/-- A moment of a render. -/
structure Moment where
  /-- The context. -/
  stack : Stack
  /-- How many tags were looked at. -/
  used : Nat
  /-- The text so far, or the limit that the render went over. -/
  result : Except LimitError String
  /-- The work ahead. -/
  tasks : List Task

namespace Moment

variable {limits : Limits}

/-- Renders a text after `out` to the end of its first tag, or of the section that begins there;
then the work goes on with `rest`. -/
def scan (limits : Limits) (m : Moment) (out : String) (depth : Nat) (t : List Char)
    (rest : List Task) : Moment :=
  match cut t with
  | none => { m with result := .ok (out ++ String.ofList t), tasks := rest }
  | some c =>
    let copied := out ++ String.ofList c.before
    if limits.maxTagScans < m.used + 1 then
      { m with used := m.used + 1, result := .error (.tagScans limits.maxTagScans), tasks := rest }
    else
      match c.tag.opens? with
      | none => { m with
          used := m.used + 1
          result := .ok (copied ++ c.tag.shown m.stack)
          tasks := .text depth c.after :: rest }
      | some name =>
        match (sectionEnd name c.after).run limits (m.used + 1) with
        | (.error e, now) => { m with used := now, result := .error e, tasks := rest }
        | (.ok none, now) =>
          { m with used := now, result := .ok copied, tasks := .text depth c.after :: rest }
        | (.ok (some found), now) => { m with
            used := now
            result := .ok copied
            tasks := (c.tag.frames m.stack).map (.body · (depth + 1) (c.after.take found.body)) ++
              .text depth (c.after.drop found.stop) :: rest }

/-- One step of a render. A frame that is on is taken off however the render went; any other work is
dropped once a limit was gone over. -/
def step (limits : Limits) (m : Moment) : Moment :=
  match m.tasks, m.result with
  | [], _ => m
  | .leave :: rest, _ => { m with stack := m.stack.tail, tasks := rest }
  | _ :: rest, .error _ => { m with tasks := rest }
  | .body none depth t :: rest, .ok _ => { m with tasks := .enter depth t :: rest }
  | .body (some frame) depth t :: rest, .ok _ =>
    { m with stack := frame :: m.stack, tasks := .enter depth t :: .leave :: rest }
  | .enter depth t :: rest, .ok _ =>
    if limits.maxDepth < depth then
      { m with result := .error (.depth limits.maxDepth), tasks := rest }
    else { m with tasks := .text depth t :: rest }
  | .text depth t :: rest, .ok out => m.scan limits out depth t rest

/-- The first moment of a render. -/
def first (start : Stack) (used : Nat) (template : String) : Moment :=
  ⟨start, used, .ok "", [.text 0 template.toList]⟩

/-- Whether one moment comes some steps after another. -/
def Leads (limits : Limits) (m later : Moment) : Prop := ∃ n, (step limits)^[n] m = later

theorem Leads.refl (m : Moment) : Leads limits m m := ⟨0, rfl⟩

theorem Leads.step {m later : Moment} (h : Leads limits (m.step limits) later) :
    Leads limits m later := by
  obtain ⟨n, hn⟩ := h
  exact ⟨n + 1, hn⟩

theorem Leads.trans {m mid later : Moment} (h : Leads limits m mid)
    (h' : Leads limits mid later) : Leads limits m later := by
  obtain ⟨n, rfl⟩ := h
  obtain ⟨k, rfl⟩ := h'
  exact ⟨k + n, Function.iterate_add_apply _ k n m⟩

/-! ### The machine renders -/

/-- A moment at which a computation is over, run within limits on the count of an earlier one. -/
def ended (limits : Limits) (stack : Stack) (x : Metered String) (used : Nat) (rest : List Task) :
    Moment :=
  ⟨stack, (x.run limits used).2, (x.run limits used).1, rest⟩

/-- Once a limit was gone over, bodies that are still ahead are dropped, and the text after them. -/
theorem leads_drop (stack : Stack) (used : Nat) (e : LimitError) (frames : List (Option Frame))
    (depth depth' : Nat) (body t : List Char) (rest : List Task) :
    Leads limits ⟨stack, used, .error e, frames.map (.body · depth body) ++ .text depth' t :: rest⟩
      ⟨stack, used, .error e, rest⟩ := by
  induction frames with
  | nil => exact .step (.refl _)
  | cons frame frames ih =>
      refine .step ?_
      cases frame <;> exact ih

/-- A body is rendered under its frame, and the frame is off again after it. -/
theorem leads_body {depth : Nat} {body : List Char}
    (hbody : ∀ stack used out rest,
      Leads limits ⟨stack, used, .ok out, .text depth body :: rest⟩
        (ended limits stack (renderFrom depth stack out body) used rest))
    (frame : Option Frame) (stack : Stack) (used : Nat) (out : String) (rest : List Task) :
    Leads limits ⟨stack, used, .ok out, .body frame depth body :: rest⟩
      (ended limits stack
        (.enter depth fun _ => renderFrom depth (frame.toList ++ stack) out body) used rest) := by
  -- what comes before the frame is taken off, in the context with the frame
  have henter (context : Stack) (rest : List Task) :
      Leads limits ⟨context, used, .ok out, .enter depth body :: rest⟩
        (ended limits context (.enter depth fun _ => renderFrom depth context out body) used
          rest) := by
    refine .step ?_
    by_cases hdeep : limits.maxDepth < depth
    · simp only [Moment.step, ended, Metered.run, if_pos hdeep]
      exact .refl _
    · simp only [Moment.step, ended, Metered.run, if_neg hdeep]
      exact hbody context used out rest
  cases frame with
  | none => exact .step (henter stack rest)
  | some frame => exact .step ((henter (frame :: stack) (.leave :: rest)).trans (.step (.refl _)))

/-- The bodies of a section are rendered one after another; after a limit nothing is left of them
and of the text behind. -/
theorem leads_bodies {depth : Nat} {body : List Char}
    (hbody : ∀ stack used out rest,
      Leads limits ⟨stack, used, .ok out, .text depth body :: rest⟩
        (ended limits stack (renderFrom depth stack out body) used rest))
    (frames : List (Option Frame)) (stack : Stack) (used : Nat) (out : String) {t : List Char}
    {depth' : Nat} {rest : List Task}
    (ht : ∀ used out, Leads limits ⟨stack, used, .ok out, .text depth' t :: rest⟩
      (ended limits stack (renderFrom depth' stack out t) used rest)) :
    Leads limits
      ⟨stack, used, .ok out, frames.map (.body · depth body) ++ .text depth' t :: rest⟩
      (ended limits stack (do
        let bodies ← (frames.map fun frame => frame.toList ++ stack).foldlM (fun out context =>
          .enter depth fun _ => renderFrom depth context out body) out
        renderFrom depth' stack bodies t) used rest) := by
  induction frames generalizing used out with
  | nil => exact ht used out
  | cons frame frames ih =>
      refine (leads_body hbody frame stack used out _).trans ?_
      rw [List.map_cons, List.foldlM_cons, LawfulMonad.bind_assoc, Metered.bind_eq_bind]
      simp only [ended, Metered.run_bind]
      cases (Metered.enter depth fun _ =>
          renderFrom depth (frame.toList ++ stack) out body).run limits used with
      | mk result now =>
          cases result with
          | error e => exact leads_drop stack now e frames depth depth' body t rest
          | ok bodies => exact ih now bodies

/-- **The machine renders.** When a text is next, the machine comes to a moment at which the text is
rendered as `renderFrom` renders it, with the same count of tags; all frames that were put on for it
are off again. -/
theorem leads_text (limits : Limits) (depth : Nat) (stack : Stack) (used : Nat) (out : String)
    (t : List Char) (rest : List Task) :
    Leads limits ⟨stack, used, .ok out, .text depth t :: rest⟩
      (ended limits stack (renderFrom depth stack out t) used rest) := by
  induction ht : t.length using Nat.strongRecOn generalizing depth stack used out t rest with
  | ind n ih =>
  subst ht
  refine .step ?_
  cases h : cut t with
  | none =>
      simp only [Moment.step, scan, h, renderFrom_of_none h]
      exact .refl _
  | some c =>
      have hafter := length_after_lt h
      simp only [Moment.step, scan, h, renderFrom_of_cut h, ended, Metered.run]
      by_cases hfull : limits.maxTagScans < used + 1
      · simp only [if_pos hfull]
        exact .refl _
      simp only [if_neg hfull]
      cases htag : c.tag.opens? with
      | none => exact ih _ hafter depth stack _ _ c.after rest rfl
      | some name =>
          simp only [Metered.bind_eq_bind, Metered.run_bind]
          cases (sectionEnd name c.after).run limits (used + 1) with
          | mk found now =>
              cases found with
              | error e => exact .refl _
              | ok found =>
                  cases found with
                  | none => exact ih _ hafter depth stack now _ c.after rest rfl
                  | some found =>
                      have hbody := length_take_after_lt h found.body
                      have hrest := length_drop_after_lt h found.stop
                      have hbodies := leads_bodies
                        (fun stack used out rest =>
                          ih _ hbody (depth + 1) stack used out _ rest rfl)
                        (c.tag.frames stack) stack now (out ++ String.ofList c.before)
                        (fun used out => ih _ hrest depth stack used out _ rest rfl)
                      rw [← contexts_eq_map_frames] at hbodies
                      exact hbodies

end Moment

/-! ### The invariant of its steps -/

/-- Whether a task takes no frame off and puts none on that does not fit its value. -/
def Task.Sound : Task → Prop
  | .leave => False
  | .body (some frame) _ _ => frame.Fits
  | _ => True

/-- `Balanced start stack tasks`: a context is `start` with frames on top that fit their values, and
the tasks take off just these frames. -/
inductive Balanced (start : Stack) : Stack → List Task → Prop where
  | done : Balanced start start []
  | task {stack : Stack} {task : Task} {tasks : List Task} (htask : task.Sound)
      (rest : Balanced start stack tasks) : Balanced start stack (task :: tasks)
  | leave {stack : Stack} {frame : Frame} {tasks : List Task} (hframe : frame.Fits)
      (rest : Balanced start stack tasks) : Balanced start (frame :: stack) (.leave :: tasks)

variable {start stack : Stack} {tasks : List Task}

theorem Balanced.append {added : List Task} (hadded : ∀ task ∈ added, task.Sound)
    (h : Balanced start stack tasks) : Balanced start stack (added ++ tasks) := by
  induction added with
  | nil => exact h
  | cons task added ih =>
      exact .task (hadded task List.mem_cons_self)
        (ih fun other hother => hadded other (List.mem_cons_of_mem _ hother))

/-- What follows a task that takes no frame off is balanced as well. -/
theorem Balanced.rest {task : Task} (h : Balanced start stack (task :: tasks))
    (hne : task ≠ .leave) : task.Sound ∧ Balanced start stack tasks := by
  cases h with
  | task htask hrest => exact ⟨htask, hrest⟩
  | leave => exact absurd rfl hne

theorem Balanced.exists_frames (h : Balanced start stack tasks) :
    ∃ frames : Stack, stack = frames ++ start ∧ ∀ frame ∈ frames, frame.Fits := by
  induction h with
  | done => exact ⟨[], rfl, by simp⟩
  | task _ _ ih => exact ih
  | @leave stack frame tasks hframe _ ih =>
      obtain ⟨frames, rfl, hframes⟩ := ih
      exact ⟨frame :: frames, rfl, by simpa using ⟨hframe, hframes⟩⟩

namespace Moment

variable {limits : Limits}

/-- Rendering a text to the end of its first tag or section leaves the context alone. What it adds
to the work are bodies under frames that fit, and the text behind. -/
theorem scan_spec (limits : Limits) (m : Moment) (out : String) (depth : Nat) (t : List Char)
    (rest : List Task) :
    (m.scan limits out depth t rest).stack = m.stack ∧
      ∃ added, (m.scan limits out depth t rest).tasks = added ++ rest ∧
        ∀ task ∈ added, task.Sound := by
  have htext (depth : Nat) (t : List Char) :
      ∃ added, Task.text depth t :: rest = added ++ rest ∧ ∀ task ∈ added, task.Sound :=
    ⟨[.text depth t], rfl, by simp [Task.Sound]⟩
  have hnone : ∃ added, rest = added ++ rest ∧ ∀ task ∈ added, task.Sound := ⟨[], rfl, by simp⟩
  unfold scan
  split
  · exact ⟨rfl, hnone⟩
  rename_i c _
  dsimp only
  split
  · exact ⟨rfl, hnone⟩
  split
  · exact ⟨rfl, htext depth c.after⟩
  split
  · exact ⟨rfl, hnone⟩
  · exact ⟨rfl, htext depth c.after⟩
  · rename_i found now _
    refine ⟨rfl, _ ++ [.text depth (c.after.drop found.stop)], List.append_cons .., ?_⟩
    intro task htask
    rcases List.mem_append.mp htask with hbody | hlast
    · obtain ⟨frame, hframe, rfl⟩ := List.mem_map.mp hbody
      cases frame with
      | none => trivial
      | some frame => exact Tag.fits_of_mem_frames hframe
    · obtain rfl := List.mem_singleton.mp hlast
      trivial

/-- A step keeps the context and the work ahead in balance. -/
theorem step_balanced {m : Moment} (h : Balanced start m.stack m.tasks) :
    Balanced start (m.step limits).stack (m.step limits).tasks := by
  obtain ⟨stack, used, result, tasks⟩ := m
  cases tasks with
  | nil => exact h
  | cons task rest =>
      cases task with
      | leave =>
          cases h with
          | task htask _ => exact htask.elim
          | leave _ hrest => exact hrest
      | text depth t =>
          obtain ⟨-, hrest⟩ := h.rest nofun
          cases result with
          | error e => exact hrest
          | ok out =>
              obtain ⟨hstack, added, htasks, hadded⟩ :=
                scan_spec limits ⟨stack, used, .ok out, .text depth t :: rest⟩ out depth t rest
              simp only [step, hstack, htasks]
              exact hrest.append hadded
      | body frame depth t =>
          obtain ⟨hframe, hrest⟩ := h.rest nofun
          cases result with
          | error e => exact hrest
          | ok out =>
              cases frame with
              | none => exact .task trivial hrest
              | some frame => exact .task trivial (.leave hframe hrest)
      | enter depth t =>
          obtain ⟨-, hrest⟩ := h.rest nofun
          cases result with
          | error e => exact hrest
          | ok out =>
              simp only [step]
              split
              · exact hrest
              · exact .task trivial hrest

/-- At every moment of a render the context and the work ahead are in balance. -/
theorem balanced_steps (limits : Limits) (start : Stack) (used : Nat) (template : String)
    (n : Nat) :
    Balanced start ((step limits)^[n] (first start used template)).stack
      ((step limits)^[n] (first start used template)).tasks := by
  induction n with
  | zero => exact .task trivial .done
  | succ n ih =>
      rw [Function.iterate_succ_apply']
      exact step_balanced ih

/-- A render whose work is done stays as it is. -/
theorem step_iterate_of_done {m : Moment} (h : m.tasks = []) (n : Nat) :
    (step limits)^[n] m = m := by
  have hstep : m.step limits = m := by
    obtain ⟨stack, used, result, tasks⟩ := m
    obtain rfl : tasks = [] := h
    rfl
  exact Function.iterate_fixed hstep n

/-- A render comes to an end, with the context that it began with. -/
theorem exists_ended (limits : Limits) (start : Stack) (used : Nat) (template : String) :
    ∃ n, ∀ later, n ≤ later → (step limits)^[later] (first start used template) =
      ended limits start (renderIn start template) used [] := by
  obtain ⟨n, hn⟩ := leads_text limits 0 start used "" template.toList []
  refine ⟨n, fun later hlater => ?_⟩
  obtain ⟨more, rfl⟩ := Nat.exists_eq_add_of_le' hlater
  rw [Function.iterate_add_apply, first, hn]
  exact step_iterate_of_done rfl more

end Moment

/-! ### What the path `.` names -/

theorem findSome?_plainRecord?_of_fits {frames : Stack} (h : ∀ frame ∈ frames, frame.Fits) :
    frames.findSome? Frame.plainRecord? = none := by
  rw [List.findSome?_eq_none_iff]
  intro frame hframe
  have hfits := h frame hframe
  cases frame with
  | wrapped value => rfl
  | record value => cases value <;> simp_all [Frame.plainRecord?, Frame.Fits, isContainer, isPlain]

/-- Under frames that fit their values, `.` names the innermost plain item among them, or else what
it names below them. -/
theorem resolve?_point_append {frames : Stack} (h : ∀ frame ∈ frames, frame.Fits) (start : Stack) :
    Stack.resolve? (frames ++ start) "." =
      (frames.findSome? Frame.wrapped?).or (start.resolve? ".") := by
  simp only [Stack.resolve?, if_true, Stack.current?, List.findSome?_append,
    findSome?_plainRecord?_of_fits h, Option.none_or, Option.or_assoc]

/-- `Opened stack context`: inside `stack` a body is rendered in this context, any number of
sections deep, none of which goes over a list with a plain item. -/
inductive Opened (stack : Stack) : Stack → Prop where
  | here : Opened stack stack
  | opens {context deeper : Stack} {tag : Tag} (outer : Opened stack context)
      (hmem : deeper ∈ tag.contexts context)
      (hitems : ∀ name items, tag = .sectionOpen name → context.resolve? name = some (.arr items) →
        ∀ item ∈ items, isContainer item = true) : Opened stack deeper

/-- Such sections do not change what `.` names. -/
theorem Opened.resolve?_eq {stack context : Stack} (h : Opened stack context) :
    context.resolve? "." = stack.resolve? "." := by
  induction h with
  | here => rfl
  | @opens context deeper tag _ hmem hitems ih =>
      rw [contexts_eq_map_frames] at hmem
      obtain ⟨frame, hframe, rfl⟩ := List.mem_map.mp hmem
      rw [← ih]
      cases frame with
      | none => rfl
      | some frame =>
          have hfits : ∀ other ∈ [frame], other.Fits := by
            simpa using Tag.fits_of_mem_frames hframe
          -- the frame is a record, and says nothing about `.`
          have hrecord : frame.wrapped? = none := by
            obtain ⟨name, items, htag, hvalue, item, hitem, rfl⟩ | ⟨fields, rfl⟩ :=
              Tag.mem_frames hframe
            · have hcontainer := hitems name items htag hvalue item hitem
              cases item <;> simp_all [isContainer, itemFrame, Frame.wrapped?]
            · rfl
          show Stack.resolve? ([frame] ++ context) "." = context.resolve? "."
          rw [resolve?_point_append hfits, List.findSome?_singleton, hrecord, Option.none_or]

/-- **The context at every moment.** A render on any context comes to an end, with the text or the
limit that `renderIn` gives, and leaves the context as it found it. At every moment on the way the
context is the one at the start with frames on top that fit their values: records of objects and
lists, and plain frames of anything else. So `.` names the item of the innermost plain frame that
the render put on, or else what it named at the start; and a body shows the same for `.` however
many sections deep it lies, as long as none of them goes over a list with a plain item. -/
theorem stack_at_every_moment (limits : Limits) (start : Stack) (used : Nat) (template : String) :
    (∃ n, ∀ later, n ≤ later →
      (Moment.step limits)^[later] (Moment.first start used template) =
        ⟨start, ((renderIn start template).run limits used).2,
          ((renderIn start template).run limits used).1, []⟩) ∧
    ∀ n, ∃ frames : Stack,
      ((Moment.step limits)^[n] (Moment.first start used template)).stack = frames ++ start ∧
      (∀ frame ∈ frames, (∃ value, frame = .record value ∧ isContainer value = true) ∨
        ∃ value, frame = .wrapped value ∧ isContainer value = false) ∧
      Stack.resolve? (frames ++ start) "." =
        (frames.findSome? Frame.wrapped?).or (start.resolve? ".") ∧
      ∀ context, Opened (frames ++ start) context →
        (Tag.substitution ".").shown context = (Tag.substitution ".").shown (frames ++ start) := by
  refine ⟨Moment.exists_ended limits start used template, fun n => ?_⟩
  obtain ⟨frames, hstack, hframes⟩ :=
    (Moment.balanced_steps limits start used template n).exists_frames
  refine ⟨frames, hstack, fun frame hframe => ?_, resolve?_point_append hframes start, ?_⟩
  · have hfits := hframes frame hframe
    cases frame with
    | record value => exact .inl ⟨value, rfl, hfits⟩
    | wrapped value => exact .inr ⟨value, rfl, hfits⟩
  · intro context hopened
    simp only [Tag.shown, hopened.resolve?_eq]

/-- A record opened inside a loop over a plain item: `.` shows the item. -/
theorem stack_at_every_moment_in_loop :
    let start : Stack := [.record (.obj [("a", .arr [.str "x"]), ("b", .obj [])])]
    let loop : Stack := .wrapped (.str "x") :: start
    let first := Moment.first start 0
      (tagText "#a" ++ (tagText "#b" ++ tagText "." ++ tagText "/b" ++ tagText "/a"))
    (∃ n, ((Moment.step ⟨9, 9⟩)^[n] first).stack = start ∧
      ((Moment.step ⟨9, 9⟩)^[n] first).result = .ok "x") ∧
    ((Moment.step ⟨9, 9⟩)^[2] first).stack = loop ∧
    (∀ frame ∈ [Frame.wrapped (.str "x")], (∃ value, frame = .record value ∧
      isContainer value = true) ∨ ∃ value, frame = .wrapped value ∧ isContainer value = false) ∧
    Opened loop (.record (.obj []) :: loop) ∧
    (Tag.substitution ".").shown (.record (.obj []) :: loop) = "x" := by
  intro start loop first
  let behind := tagText "#b" ++ tagText "." ++ tagText "/b" ++ tagText "/a"
  obtain ⟨⟨n, hend⟩, hmoment⟩ := stack_at_every_moment ⟨9, 9⟩ start 0 (tagText "#a" ++ behind)
  obtain ⟨frames, hstack, hframes, -, hopened⟩ := hmoment 2
  have htwo : ((Moment.step ⟨9, 9⟩)^[2] first).stack = loop := by
    have hcut : cut (tagText "#a" ++ behind).toList = some ⟨[], ['#', 'a'], behind.toList⟩ := by
      decide +kernel
    have htag : (Cut.mk [] ['#', 'a'] behind.toList).tag = .sectionOpen "a" := by decide
    have hsearch : (sectionEnd "a" behind.toList).run ⟨9, 9⟩ 1 = (.ok (some ⟨17, 23⟩), 5) := by
      decide +kernel
    have hitem : (Tag.sectionOpen "a").frames start = [some (.wrapped (.str "x"))] := rfl
    show (Moment.step _ (Moment.step _ (Moment.first start 0 (tagText "#a" ++ behind)))).stack = _
    clear_value behind
    simp only [Moment.first, Moment.step, Moment.scan, hcut, htag, Tag.opens?, hsearch, hitem]
    rfl
  obtain rfl : frames = [.wrapped (.str "x")] :=
    List.append_cancel_right (hstack.symm.trans htwo)
  have hrecord : Opened loop (.record (.obj []) :: loop) := by
    have hcontexts : (Tag.sectionOpen "b").contexts loop = [.record (.obj []) :: loop] := rfl
    have hvalue : loop.resolve? "b" = some (.obj []) := rfl
    refine .opens .here (hcontexts ▸ List.mem_singleton_self _) fun name items hname hitems => ?_
    obtain rfl := Tag.sectionOpen.inj hname
    cases hvalue.symm.trans hitems
  refine ⟨⟨n, ?_, ?_⟩, htwo, hframes, hrecord, ?_⟩
  · exact congrArg Moment.stack (hend n (Nat.le_refl n))
  · refine (congrArg Moment.result (hend n (Nat.le_refl n))).trans ?_
    show ((renderIn start _).run ⟨9, 9⟩ 0).1 = .ok "x"
    decide +kernel
  · refine (hopened _ hrecord).trans ?_
    decide +kernel

end Vitae.Template
