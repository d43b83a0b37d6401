import Vitae.Template.Render

/-!
# Rendering on one shared context

`renderFrom` hands every section body a context of its own. `renderOn` keeps one context for all its
work, as a renderer does that holds its frames in one place: an item's frame is put on top of it
before the body of a section is rendered, and taken off again after it, whether the body came to its
end or went over a limit. A limit that stops the work undoes nothing of it, so every frame that is
put on has to be taken off on every way out.

`renderOn_run` says that the two renderers agree: `renderOn` gives what `renderFrom` gives in the
context that it finds, counts as many tags, and leaves the context as it was. The proof goes through
`Work.Follows`, which says this of any part of the work and is kept by everything that work is put
together from.
-/

namespace Vitae.Template

/-! ### Work on a shared context -/

/-- What a renderer keeps while it works. -/
structure Shared where
  /-- The context, with the frames of the section bodies that are being rendered. -/
  stack : Stack
  /-- How many tags were looked at. -/
  used : Nat

/-- Work on a shared context. It ends with a value or with the limit that it went over; what it did
to the context stays in either case. -/
abbrev Work (α : Type) := ExceptT LimitError (StateM Shared) α

namespace Work

variable {α β : Type} {limits : Limits}

/-- Work that only looks at tags and enters bodies, within limits. -/
def within (limits : Limits) (x : Metered α) : Work α :=
  ExceptT.mk <| modifyGet fun shared =>
    ((x.run limits shared.used).1, { shared with used := (x.run limits shared.used).2 })

/-- Work with a frame on top of the context. However the work ends, the frame is taken off. -/
def under (frame : Frame) (work : Work α) : Work α := ExceptT.mk do
  modify fun shared => { shared with stack := frame :: shared.stack }
  let result ← work.run
  modify fun shared => { shared with stack := shared.stack.tail }
  return result

/-- Work that depends on the context it finds. -/
def onStack (work : Stack → Work α) : Work α := do work (← get).stack

/-- `work.Follows limits x`: in every context the work ends as the computation that `x` gives for
this context does within the limits, with the same count of tags, and the context is left as it
was. -/
def Follows (limits : Limits) (work : Work α) (x : Stack → Metered α) : Prop :=
  ∀ stack used, work.run.run ⟨stack, used⟩ =
    (((x stack).run limits used).1, ⟨stack, ((x stack).run limits used).2⟩)

theorem Follows.pure (a : α) : Follows limits (Pure.pure a) fun _ => Pure.pure a :=
  fun _ _ => rfl

theorem Follows.within (x : Metered α) : Follows limits (Work.within limits x) fun _ => x :=
  fun _ _ => rfl

theorem Follows.onStack {work : Stack → Work α} {x : Stack → Stack → Metered α}
    (h : ∀ found, Follows limits (work found) (x found)) :
    Follows limits (Work.onStack work) fun stack => x stack stack :=
  fun stack used => h stack stack used

/-- A frame is put on for the time of the work only. -/
theorem Follows.under {work : Work α} {x : Stack → Metered α} (h : Follows limits work x)
    (frame : Frame) : Follows limits (Work.under frame work) fun stack => x (frame :: stack) := by
  intro stack used
  have hwork := h (frame :: stack) used
  simp only [Work.under, ExceptT.run_mk, StateT.run_bind, StateT.run_modify, pure_bind]
  rw [hwork]
  rfl

/-- Work goes on after other work only if that ended well; the context is as it was either way. -/
theorem Follows.bind {work : Work α} {x : Stack → Metered α} (h : Follows limits work x)
    {next : α → Work β} {y : α → Stack → Metered β} (hnext : ∀ a, Follows limits (next a) (y a)) :
    Follows limits (work >>= next) fun stack => x stack >>= fun a => y a stack := by
  intro stack used
  have hwork := h stack used
  simp only [ExceptT.run_bind, StateT.run_bind, Metered.bind_eq_bind, Metered.run_bind]
  rw [hwork]
  cases (x stack).run limits used with
  | mk result now =>
      cases result with
      | error e => rfl
      | ok a => exact hnext a stack now

theorem Follows.charge {work : Work α} {x : Stack → Metered α} (h : Follows limits work x) :
    Follows limits (Work.within limits Metered.charge >>= fun _ => work) fun stack =>
      .scan fun _ => x stack :=
  .bind (.within Metered.charge) fun _ => h

theorem Follows.enter {work : Work α} {x : Stack → Metered α} (h : Follows limits work x)
    (depth : Nat) :
    Follows limits (Work.within limits (Metered.enter depth .done) >>= fun _ => work) fun stack =>
      .enter depth fun _ => x stack :=
  .bind (.within (Metered.enter depth .done)) fun _ => h

/-- Work on one item after another. -/
theorem Follows.foldlM {ι : Type} {step : α → ι → Work α} {x : α → ι → Stack → Metered α}
    (h : ∀ a i, Follows limits (step a i) (x a i)) (items : List ι) (a : α) :
    Follows limits (items.foldlM step a) fun stack => items.foldlM (fun a i => x a i stack) a := by
  induction items generalizing a with
  | nil => exact .pure a
  | cons item rest ih => exact (h a item).bind ih

end Work

/-! ### Rendering -/

/-- The bodies of a section over a value; `body` renders one body after a text. -/
def renderSection (value : Option Json) (body : String → Work String) (out : String) :
    Work String :=
  match value with
  | some (.arr items) =>
      items.foldlM (fun out item => Work.under (itemFrame item) (body out)) out
  | some value =>
      if Html.holds (some value) then
        if value.fields?.isSome ∧ Html.safe? value = none then
          Work.under (.record value) (body out)
        else body out
      else pure out
  | none => pure out

/-- The bodies of the section, of either kind, that begins with a tag. -/
def renderBodies (tag : Tag) (value : Option Json) (body : String → Work String) (out : String) :
    Work String :=
  match tag with
  | .invertedOpen _ => if Html.holds value then pure out else body out
  | _ => renderSection value body out

/-- Renders `t` at a depth on a shared context, after the text `out`. -/
def renderOn (limits : Limits) (depth : Nat) (out : String) (t : List Char) : Work String :=
  match _h : cut t with
  | none => pure (out ++ String.ofList t)
  | some c => do
    Work.within limits Metered.charge
    let copied := out ++ String.ofList c.before
    match c.tag.opens? with
    | none => Work.onStack fun stack => renderOn limits depth (copied ++ c.tag.shown stack) c.after
    | some name =>
      match ← Work.within limits (sectionEnd name c.after) with
      | none => renderOn limits depth copied c.after
      | some found => do
        let bodies ← Work.onStack fun stack =>
          renderBodies c.tag (stack.resolve? name) (fun out => do
            Work.within limits (Metered.enter (depth + 1) .done)
            renderOn limits (depth + 1) out (c.after.take found.body)) copied
        renderOn limits depth bodies (c.after.drop found.stop)
termination_by t.length
decreasing_by
  · exact length_after_lt _h
  · exact length_after_lt _h
  · exact length_take_after_lt _h _
  · exact length_drop_after_lt _h _

theorem renderOn_of_none {t : List Char} (h : cut t = none) (limits : Limits) (depth : Nat)
    (out : String) : renderOn limits depth out t = pure (out ++ String.ofList t) := by
  rw [renderOn]
  split
  · rfl
  · simp_all

/-- Rendering at a tag: one scan, and then what the tag asks for. -/
theorem renderOn_of_cut {t : List Char} {c : Cut} (h : cut t = some c) (limits : Limits)
    (depth : Nat) (out : String) :
    renderOn limits depth out t = (do
      Work.within limits Metered.charge
      match c.tag.opens? with
      | none => Work.onStack fun stack =>
          renderOn limits depth (out ++ String.ofList c.before ++ c.tag.shown stack) c.after
      | some name =>
        match ← Work.within limits (sectionEnd name c.after) with
        | none => renderOn limits depth (out ++ String.ofList c.before) c.after
        | some found => do
          let bodies ← Work.onStack fun stack =>
            renderBodies c.tag (stack.resolve? name) (fun out => do
              Work.within limits (Metered.enter (depth + 1) .done)
              renderOn limits (depth + 1) out (c.after.take found.body))
              (out ++ String.ofList c.before)
          renderOn limits depth bodies (c.after.drop found.stop)) := by
  rw [renderOn]
  split
  · simp_all
  · rename_i c' h'
    obtain rfl : c = c' := by simpa [h] using h'
    rfl

/-! ### The two renderers agree -/

variable {limits : Limits}

/-- The bodies of a section are rendered in the contexts that the section gives them. -/
theorem follows_renderSection {body : String → Work String} {x : String → Stack → Metered String}
    (h : ∀ out, Work.Follows limits (body out) (x out)) (value : Option Json) (out : String) :
    Work.Follows limits (renderSection value body out) fun stack =>
      (sectionContexts value stack).foldlM x out := by
  have hsame (value : Json) : Work.Follows limits
      (if Html.holds (some value) then body out else pure out) fun stack =>
        (if Html.holds (some value) then [stack] else []).foldlM x out := by
    split
    · simpa using h out
    · simpa using Work.Follows.pure out
  cases value with
  | none => exact .pure out
  | some value =>
      cases value with
      | arr items =>
          simp only [renderSection, sectionContexts, List.foldlM_map]
          exact .foldlM (fun out item => (h out).under (itemFrame item)) items out
      | obj fields =>
          cases hsafe : Html.safe? (.obj fields) with
          | none =>
              have hholds : Html.holds (some (.obj fields)) = true := by simp [Html.holds, hsafe]
              simpa [renderSection, sectionContexts, hsafe, hholds, Json.fields?]
                using (h out).under (.record (.obj fields))
          | some markup => simpa [renderSection, sectionContexts, hsafe] using hsame (.obj fields)
      | _ => simpa [renderSection, sectionContexts, Json.fields?] using hsame _

/-- So are those of an inverted one. -/
theorem follows_renderBodies {body : String → Work String} {x : String → Stack → Metered String}
    (h : ∀ out, Work.Follows limits (body out) (x out)) {tag : Tag} {name : String}
    (htag : tag.opens? = some name) (out : String) :
    Work.Follows limits
      (Work.onStack fun stack => renderBodies tag (stack.resolve? name) body out) fun stack =>
        (tag.contexts stack).foldlM x out := by
  cases tag with
  | sectionOpen opened =>
      obtain rfl : opened = name := Option.some.inj htag
      exact .onStack fun found => follows_renderSection h (found.resolve? opened) out
  | invertedOpen opened =>
      obtain rfl : opened = name := Option.some.inj htag
      refine .onStack (x := fun found stack =>
        (invertedContexts (found.resolve? opened) stack).foldlM x out) fun found => ?_
      simp only [renderBodies, invertedContexts]
      split
      · exact .pure out
      · simpa using h out
  | _ => cases htag

/-- Rendering on a shared context follows rendering with a context for each body. -/
theorem follows_renderOn (limits : Limits) (depth : Nat) (out : String) (t : List Char) :
    Work.Follows limits (renderOn limits depth out t) fun stack =>
      renderFrom depth stack out t := by
  induction ht : t.length using Nat.strongRecOn generalizing depth out t with
  | ind n ih =>
  subst ht
  cases h : cut t with
  | none =>
      simp only [renderOn_of_none h, renderFrom_of_none h]
      exact .pure _
  | some c =>
      have hafter := length_after_lt h
      simp only [renderOn_of_cut h, renderFrom_of_cut h]
      refine .charge ?_
      cases htag : c.tag.opens? with
      | none =>
          exact .onStack fun found => ih _ hafter depth (_ ++ c.tag.shown found) c.after rfl
      | some name =>
          refine .bind (.within _) fun found => ?_
          cases found with
          | none => exact ih _ hafter depth _ c.after rfl
          | some found =>
              have hbody := length_take_after_lt h found.body
              have hrest := length_drop_after_lt h found.stop
              -- the bodies leave the context to the rest of the template as they found it
              refine .bind (follows_renderBodies (fun out => ?_) htag _) fun bodies =>
                ih _ hrest depth bodies _ rfl
              exact .enter (ih _ hbody (depth + 1) out _ rfl) (depth + 1)

/-- **One shared context is enough.** Rendering on a shared context ends as rendering with a context
for each body does and counts as many tags, and every frame of the context is as it was, however
deep the render was when it ended. -/
theorem renderOn_run (limits : Limits) (depth : Nat) (stack : Stack) (out : String) (t : List Char)
    (used : Nat) :
    (renderOn limits depth out t).run.run ⟨stack, used⟩ =
      (((renderFrom depth stack out t).run limits used).1,
        ⟨stack, ((renderFrom depth stack out t).run limits used).2⟩) :=
  follows_renderOn limits depth out t stack used

end Vitae.Template
