import Vitae.Proofs.Endpoints
import Vitae.Proofs.Offsets

/-!
# Rendering in place

`renderAt` renders a template in place: it keeps an offset into it, and takes out of it nothing but
the literal texts and the bodies of sections. Each of these is a part between two offsets, which
come from searches, so that it is not plain that there is such a part. `renderAt_eq` says that
there always is: the rendering in place comes to no fault, in any context and under all limits, and
is the same computation as the rendering of texts.

A service that renders in place would have to answer a fault as an error of its own, which it does
not explain to its clients. There is no request that gets this answer (`in_place_faultless`).
-/

namespace Vitae

namespace Template

open Text (byteCount slice)

/-- Renders what follows an offset of a template, in place. -/
def renderAt (template : List Char) (depth : Nat) (stack : Stack) (out : String) (cursor : Nat) :
    Checked String :=
  if _hcursor : cursor < byteCount template then
    match _h : scanTag template cursor with
    | .error fault => throw fault
    | .ok none => do return out ++ String.ofList (← slice template cursor (byteCount template))
    | .ok (some placed) => .scan fun _ => do
      let copied := out ++ String.ofList (← slice template cursor placed.start)
      match placed.tag.opens? with
      | none => renderAt template depth stack (copied ++ placed.tag.shown stack) placed.stop
      | some name =>
        match ← scanSection template name 1 placed.stop (Nat.le_refl _) with
        | none => renderAt template depth stack copied placed.stop
        | some span =>
          match _hbody : slice template span.start span.stop with
          | .error fault => throw fault
          | .ok body => do
            let bodies ← (placed.tag.contexts stack).foldlM (fun out context =>
              .enter (depth + 1) fun _ => renderAt body (depth + 1) context out 0) copied
            renderAt template depth stack bodies span.next
  else return out
termination_by (byteCount template, byteCount template - cursor)
decreasing_by
  all_goals have := bounds_of_scanTag _h
  · apply Prod.Lex.right
    omega
  · apply Prod.Lex.right
    omega
  · apply Prod.Lex.left
    exact Text.byteCount_lt_of_slice _hbody (by rw [span.start_eq]; omega)
  · apply Prod.Lex.right
    have := span.lt_next
    omega

theorem renderAt_of_none {template front rest : List Char} (htemplate : template = front ++ rest)
    (h : cut rest = none) (depth : Nat) (stack : Stack) (out : String) :
    renderAt template depth stack out (byteCount front) = pure (out ++ String.ofList rest) := by
  have htag : scanTag template (byteCount front) = .ok none := by
    rw [htemplate, scanTag_append, h]
    rfl
  rw [renderAt]
  split
  · split
    · simp_all
    · have hslice : slice template (byteCount front) (byteCount template) = .ok rest := by
        simpa [htemplate] using Text.slice_append front rest []
      rw [hslice]
      rfl
    · simp_all
  · rename_i hend
    rw [htemplate, Text.byteCount_append] at hend
    have hrest : rest = [] := Text.eq_nil_of_byteCount_eq_zero (by omega)
    simp [hrest]

/-- Rendering in place at a tag. -/
theorem renderAt_of_cut {template front rest : List Char} (htemplate : template = front ++ rest)
    {c : Cut} (h : cut rest = some c) (depth : Nat) (stack : Stack) (out : String) :
    let stop := (c.placed (byteCount front)).stop
    renderAt template depth stack out (byteCount front) = .scan fun _ =>
      (match c.tag.opens? with
      | none =>
        renderAt template depth stack (out ++ String.ofList c.before ++ c.tag.shown stack) stop
      | some name => do
        match ← sectionSpan template name stop with
        | none => renderAt template depth stack (out ++ String.ofList c.before) stop
        | some span =>
          let body ← slice template span.start span.stop
          let bodies ← (c.tag.contexts stack).foldlM (fun out context =>
            .enter (depth + 1) fun _ => renderAt body (depth + 1) context out 0)
            (out ++ String.ofList c.before)
          renderAt template depth stack bodies span.next) := by
  intro stop
  have htag : scanTag template (byteCount front) = .ok (some (c.placed (byteCount front))) := by
    rw [htemplate, scanTag_append, h]
    rfl
  have hbounds := bounds_of_scanTag htag
  have hliteral : slice template (byteCount front) (c.placed (byteCount front)).start =
      .ok c.before := by
    rw [htemplate, eq_of_cut h, ← List.append_assoc]
    simpa [Cut.placed] using Text.slice_append front c.before _
  rw [renderAt]
  split
  · split
    · simp_all
    · simp_all
    · rename_i placed hplaced
      obtain rfl : c.placed (byteCount front) = placed := by simpa [htag] using hplaced
      rw [hliteral]
      congr 1
      funext _
      show (match c.tag.opens? with | none => _ | some name => _) = _
      cases c.tag.opens? with
      | none => rfl
      | some name =>
          dsimp only
          rw [sectionSpan, bind_map_left]
          congr 1
          funext found
          cases found with
          | none => rfl
          | some span =>
              -- the definition keeps the equation of the body, by which it ends
              dsimp only [Option.map_some]
              split
              · rename_i hbody
                rw [hbody]
                rfl
              · rename_i hbody
                rw [hbody]
                rfl
  · omega

theorem sectionAt_append (front t : List Char) (name : String) :
    sectionAt (front ++ t) (byteCount front) name =
      Option.map (·.placed (byteCount front) t) <$> sectionEnd name t := by
  rw [sectionAt, Text.dropBytes?_append, map_eq_pure_bind]

/-- The bodies of a section are rendered in place as they are on their own, if each of them is. -/
theorem foldlM_bodies {body : List Char} {depth : Nat}
    (hbody : ∀ out context,
      renderAt body depth context out 0 = .safe (renderFrom depth context out body))
    (contexts : List Stack) (out : String) :
    contexts.foldlM (fun out context =>
        Checked.enter depth fun _ => renderAt body depth context out 0) out =
      .safe (contexts.foldlM (fun out context =>
        .enter depth fun _ => renderFrom depth context out body) out) := by
  induction contexts generalizing out with
  | nil => rfl
  | cons context rest ih =>
      rw [List.foldlM_cons, List.foldlM_cons, ← Checked.safe_bind, Checked.safe_enter, ← hbody]
      exact congrArg _ (funext ih)

/-- **Rendering in place comes to no fault**, and is the rendering of the text behind the offset. -/
theorem renderAt_eq {template front rest : List Char} (htemplate : template = front ++ rest)
    (depth : Nat) (stack : Stack) (out : String) :
    renderAt template depth stack out (byteCount front) =
      .safe (renderFrom depth stack out rest) := by
  induction hlength : rest.length using Nat.strongRecOn
    generalizing template front rest depth stack out with
  | ind n ih =>
  subst hlength
  cases h : cut rest with
  | none =>
      rw [renderAt_of_none htemplate h, renderFrom_of_none h]
      rfl
  | some c =>
      have hafter := length_after_lt h
      have hwhole : template = front ++ c.whole ++ c.after := by
        rw [htemplate, List.append_assoc, ← eq_whole_append h]
      rw [renderAt_of_cut htemplate h, renderFrom_of_cut h, Checked.safe_scan, Cut.stop_placed,
        ← Text.byteCount_append]
      congr 1
      funext _
      cases c.tag.opens? with
      | none => exact ih _ hafter hwhole depth stack _ rfl
      | some name =>
          dsimp only
          rw [sectionSpan_eq, hwhole, sectionAt_append, ← Checked.map_safe, bind_map_left,
            ← Checked.safe_bind]
          congr 1
          funext found
          cases found with
          | none => exact ih _ hafter rfl depth stack _ rfl
          | some found =>
              -- both offsets of the body, and the one behind the section, are ends of parts
              let body := c.after.take found.body
              have hslice := Text.slice_take (front ++ c.whole) c.after found.body
              have hbody (out : String) (context : Stack) :
                  renderAt body (depth + 1) context out 0 =
                    .safe (renderFrom (depth + 1) context out body) :=
                ih _ (length_take_after_lt h found.body) (List.nil_append body).symm _ _ _ rfl
              have hrest (out : String) :
                  renderAt (front ++ c.whole ++ c.after) depth stack out
                      (byteCount (front ++ c.whole) + byteCount (c.after.take found.stop)) =
                    .safe (renderFrom depth stack out (c.after.drop found.stop)) := by
                rw [← Text.byteCount_append]
                refine ih _ (length_drop_after_lt h found.stop) ?_ _ _ _ rfl
                rw [List.append_assoc _ (c.after.take _), List.take_append_drop]
              dsimp only [Option.map_some, SectionEnd.placed]
              rw [hslice, ← Checked.safe_bind, ← foldlM_bodies hbody]
              exact congrArg (_ >>= ·) (funext hrest)

/-- A render in place, within limits, ends as the render does. -/
theorem run_renderAt (stack : Stack) (template : String) (limits : Limits) (used : Nat) :
    (renderAt template.toList 0 stack "" 0).run.run limits used =
      (((renderIn stack template).run limits used).1.map .ok,
        ((renderIn stack template).run limits used).2) := by
  have hrender := renderAt_eq (List.nil_append template.toList).symm 0 stack ""
  rw [Text.byteCount_nil] at hrender
  rw [hrender, Checked.run_safe]
  rfl

end Template

namespace Service

/-! ### A service that renders in place -/

/-- The page of a request, rendered in place. A fault is a failure of the service's own, in
whatever words. -/
def renderPageInPlace (wording : Fault → String) (settings : Settings) (request : PageRequest) :
    Except Failure String :=
  let template := request.template.toList
  if Text.trim template = [] then .error (.validation "Template HTML is empty")
  else if settings.maxTemplateBytes < Text.byteCount template then
    .error (.validation (tooLarge settings.maxTemplateBytes))
  else
    let data :=
      if request.normalize then (normalize request.resume).templateData else request.resume
    match
      ((Template.renderAt template 0 [.record data] "" 0).run.run settings.renderLimits 0).1 with
    | .ok (.ok html) => .ok html
    | .ok (.error fault) => .error (.internal (wording fault))
    | .error e => .error (.render e)

/-- The service answers as if it did not render in place. -/
theorem renderPageInPlace_eq (wording : Fault → String) (settings : Settings)
    (request : PageRequest) :
    renderPageInPlace wording settings request = renderPage settings request := by
  have hrendered : request.rendered settings.renderLimits =
      Template.render settings.renderLimits request.template
        (if request.normalize then (normalize request.resume).templateData
        else request.resume) := by
    unfold PageRequest.rendered renderResume
    split <;> rfl
  rw [renderPage_eq, renderPageInPlace, hrendered, Template.render]
  dsimp only
  rw [Template.run_renderAt]
  split
  · rfl
  · split
    · rfl
    · generalize (Template.Metered.run _ _ _).1 = result
      cases result <;> rfl

theorem renderPage_ne_internal (settings : Settings) (request : PageRequest) (reason : String) :
    renderPage settings request ≠ .error (.internal reason) := by
  rw [renderPage_eq]
  split
  · simp
  · split
    · simp
    · cases request.rendered settings.renderLimits <;> simp [Except.mapError]

/-- No answer says that something went wrong in the service itself. -/
theorem status_serve_ne (settings : Settings) (request : Request) :
    (serve settings request).status ≠ 500 := by
  have hrender (content : PageRequest) : (answerRender settings content).status ≠ 500 := by
    unfold answerRender
    cases hpage : renderPage settings content with
    | ok html => simp [Response.page]
    | error failure =>
        cases failure with
        | internal reason => exact absurd hpage (renderPage_ne_internal settings content reason)
        | _ => simp [Failure.response, Response.json, Failure.status]
  have hjson {α : Type} (read : List Char → Except BodyFault α) (answer : α → Response)
      (hanswer : ∀ content, (answer content).status ≠ 500) :
      (withJson request read answer).status ≠ 500 := by
    unfold withJson
    split
    · simp [Response.refusal]
    · dsimp only
      split
      · simp [Response.refusal]
      · split
        · exact hanswer _
        · rename_i fault _
          cases fault <;> simp [BodyFault.response, Response.refusal]
  unfold serve
  split
  · split <;> simp [health, Response.json, Response.withoutBody, notAllowed]
  · split
    · exact hjson _ _ hrender
    · simp [notAllowed]
  · split
    · exact hjson _ _ fun payload => by simp [answerNormalize, Response.json]
    · simp [notAllowed]
  · simp

/-- **Reading a template in place comes to no fault.** A part of a text can be taken out only
between two boundaries in order. All parts that the searches and the renderer take out of a template
are such parts, whatever the template, the context and the limits; a search for a tag that begins at
no boundary finds nothing; and the count of open sections is never lowered below zero. So a service
that renders in place answers as one that does not, and never with an error of its own. -/
theorem in_place_faultless :
    (∀ (t : List Char) (start stop : Nat), (∃ s, Text.slice t start stop = .ok s) ↔
        start ≤ stop ∧ Text.IsBoundary t start ∧ Text.IsBoundary t stop) ∧
      (∀ (template : List Char) (origin : Nat),
        Template.scanTag template origin = .ok (Template.tagFrom? template origin)) ∧
      (∀ (template : List Char) (origin : Nat), ¬ Text.IsBoundary template origin →
        Template.scanTag template origin = .ok none) ∧
      (∀ (template : List Char) (name : String) (origin : Nat),
        Template.sectionSpan template name origin =
          .safe (Template.sectionAt template origin name)) ∧
      (∀ (front rest : List Char) (depth : Nat) (stack : Template.Stack) (out : String),
        Template.renderAt (front ++ rest) depth stack out (Text.byteCount front) =
          .safe (Template.renderFrom depth stack out rest)) ∧
      (∀ (template : String) (stack : Template.Stack) (limits : Template.Limits) (used : Nat)
          (fault : Fault),
        ((Template.renderAt template.toList 0 stack "" 0).run.run limits used).1 ≠
          .ok (.error fault)) ∧
      (∀ (wording : Fault → String) (settings : Settings) (request : PageRequest),
        renderPageInPlace wording settings request = renderPage settings request ∧
          ∀ reason, renderPageInPlace wording settings request ≠ .error (.internal reason)) ∧
      ∀ (settings : Settings) (request : Request), (serve settings request).status ≠ 500 := by
  refine ⟨?_, Template.scanTag_eq, ?_, Template.sectionSpan_eq, ?_, ?_, ?_, status_serve_ne⟩
  · intro t start stop
    exact Text.exists_slice_iff
  · intro template origin horigin
    rw [Template.scanTag_eq, Template.tagFrom?, Text.dropBytes?_eq_none horigin]
  · intro front rest depth stack out
    exact Template.renderAt_eq rfl depth stack out
  · intro template stack limits used fault
    rw [Template.run_renderAt]
    cases ((Template.renderIn stack template).run limits used).1 <;> simp [Except.map]
  · intro wording settings request
    rw [renderPageInPlace_eq]
    exact ⟨rfl, renderPage_ne_internal settings request⟩

/-- A scan that begins inside the first character finds nothing, although a tag follows. -/
theorem in_place_faultless_inside :
    let template := "é" ++ Template.tagText "x"
    ¬ Text.IsBoundary template.toList 1 ∧ Template.scanTag template.toList 1 = .ok none ∧
      Template.scanTag template.toList 2 = .ok (some ⟨.substitution "x", 2, 7⟩) := by
  intro template
  have hinside : ¬ Text.IsBoundary template.toList 1 := by
    rintro ⟨front, rest, htemplate, hfront⟩
    cases front with
    | nil => cases hfront
    | cons c front =>
        have hchars : template.toList = 'é' :: (Template.tagText "x").toList := by decide +kernel
        obtain rfl : 'é' = c := (List.cons.inj (hchars.symm.trans htemplate)).1
        have hsize : 'é'.utf8Size = 2 := by decide
        rw [Text.byteCount_cons] at hfront
        omega
  obtain ⟨-, hscan, hnone, -⟩ := in_place_faultless
  exact ⟨hinside, hnone _ _ hinside, (hscan _ _).trans (by decide +kernel)⟩

end Service

end Vitae
