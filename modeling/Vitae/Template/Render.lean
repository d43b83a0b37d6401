import Vitae.Html.Value
import Vitae.Template.Context
import Vitae.Template.Section
/-!
# Rendering a template

A template is read once from left to right. Text outside tags is copied; a substitution is replaced
by what its path names; the body of a section is rendered once for each of the contexts that
`Tag.contexts` gives it, one level deeper. An opening tag that is never closed, a close tag that
closes nothing and an empty tag leave no trace.

`renderFrom` announces every tag it looks at and every body it enters; `render` runs it within
limits. What stands before a text does not matter to its rendering (`renderFrom_append`).
-/

namespace Vitae.Template

/-- The frame of one item of a list: its parts have names if it is a container. -/
def itemFrame (item : Json) : Frame :=
  match item with
  | .obj _ | .arr _ => .record item
  | _ => .wrapped item

/-- The contexts in which the body of a section is rendered: one for each item of a list; for an
object that is no finished markup the context with the object on top; for anything else that opens a
section the context as it is. -/
def sectionContexts (value : Option Json) (stack : Stack) : List Stack :=
  match value with
  | some (.arr items) => items.map fun item => itemFrame item :: stack
  | some (.obj fields) =>
    match Html.safe? (.obj fields) with
    | none => [.record (.obj fields) :: stack]
    | some _ => if Html.holds value then [stack] else []
  | _ => if Html.holds value then [stack] else []

/-- The contexts in which the body of an inverted section is rendered: the context as it is, unless
the value opens a section. -/
def invertedContexts (value : Option Json) (stack : Stack) : List Stack :=
  if Html.holds value then [] else [stack]

/-- The contexts in which the body of the section that begins with a tag is rendered. -/
def Tag.contexts (tag : Tag) (stack : Stack) : List Stack :=
  match tag with
  | .sectionOpen name => sectionContexts (stack.resolve? name) stack
  | .invertedOpen name => invertedContexts (stack.resolve? name) stack
  | _ => []

/-- What a tag that begins no section leaves on the page. -/
def Tag.shown (tag : Tag) (stack : Stack) : String :=
  match tag with
  | .substitution path => Html.format (stack.resolve? path) path
  | _ => ""

/-- Renders `t` in a context at a depth, after the text `out`. -/
def renderFrom (depth : Nat) (stack : Stack) (out : String) (t : List Char) : Metered String :=
  match _h : cut t with
  | none => .done (out ++ String.ofList t)
  | some c => .scan fun _ =>
    let copied := out ++ String.ofList c.before
    match c.tag.opens? with
    | none => renderFrom depth stack (copied ++ c.tag.shown stack) c.after
    | some name => do
      match ← sectionEnd name c.after with
      | none => renderFrom depth stack copied c.after
      | some found =>
        let bodies ← (c.tag.contexts stack).foldlM (fun out context =>
          .enter (depth + 1) fun _ =>
            renderFrom (depth + 1) context out (c.after.take found.body)) copied
        renderFrom depth stack bodies (c.after.drop found.stop)
termination_by t.length
decreasing_by
  · exact length_after_lt _h
  · exact length_after_lt _h
  · exact Nat.lt_of_le_of_lt (List.length_take_le' _ _) (length_after_lt _h)
  · exact Nat.lt_of_le_of_lt (List.drop_suffix _ _).length_le (length_after_lt _h)

theorem renderFrom_of_none {t : List Char} (h : cut t = none) (depth : Nat) (stack : Stack)
    (out : String) : renderFrom depth stack out t = .done (out ++ String.ofList t) := by
  rw [renderFrom]
  split
  · rfl
  · simp_all

/-- Rendering at a tag: one scan, and then what the tag asks for. -/
theorem renderFrom_of_cut {t : List Char} {c : Cut} (h : cut t = some c) (depth : Nat)
    (stack : Stack) (out : String) :
    renderFrom depth stack out t = .scan fun _ =>
      (match c.tag.opens? with
      | none =>
        renderFrom depth stack (out ++ String.ofList c.before ++ c.tag.shown stack) c.after
      | some name => do
        match ← sectionEnd name c.after with
        | none => renderFrom depth stack (out ++ String.ofList c.before) c.after
        | some found =>
          let bodies ← (c.tag.contexts stack).foldlM (fun out context =>
            .enter (depth + 1) fun _ =>
              renderFrom (depth + 1) context out (c.after.take found.body))
            (out ++ String.ofList c.before)
          renderFrom depth stack bodies (c.after.drop found.stop)) := by
  rw [renderFrom]
  split
  · simp_all
  · rename_i c' h'
    obtain rfl : c = c' := by simpa [h] using h'
    rfl

/-! ### What stands before a text -/

/-- What a list of bodies adds does not depend on what stands before it. -/
theorem foldlM_append {front : String} {body : String → Stack → Metered String}
    (h : ∀ out context, body (front ++ out) context = (front ++ ·) <$> body out context)
    (contexts : List Stack) (out : String) :
    contexts.foldlM body (front ++ out) = (front ++ ·) <$> contexts.foldlM body out := by
  induction contexts generalizing out with
  | nil => rfl
  | cons context rest ih =>
    simp only [List.foldlM_cons, h, ih, map_eq_pure_bind, LawfulMonad.bind_assoc, pure_bind]

/-- What stands before a text is kept in front of its rendering. -/
theorem renderFrom_append (front : String) (depth : Nat) (stack : Stack) (out : String)
    (t : List Char) :
    renderFrom depth stack (front ++ out) t = (front ++ ·) <$> renderFrom depth stack out t := by
  induction ht : t.length using Nat.strongRecOn generalizing depth stack out t with
  | ind n ih =>
  subst ht
  have ih' : ∀ r : List Char, r.length < t.length → ∀ depth stack out,
      renderFrom depth stack (front ++ out) r = (front ++ ·) <$> renderFrom depth stack out r :=
    fun r hr depth stack out => ih _ hr depth stack out r rfl
  cases h : cut t with
  | none =>
    rw [renderFrom_of_none h, renderFrom_of_none h, Metered.map_eq_bind, Metered.done_bind,
      String.append_assoc]
  | some c =>
    have hafter := length_after_lt h
    rw [renderFrom_of_cut h, renderFrom_of_cut h, Metered.map_eq_bind, Metered.scan_bind]
    congr 1
    funext _
    rw [← Metered.map_eq_bind]
    cases c.tag.opens? with
    | none =>
      rw [← ih' _ hafter]
      simp only [String.append_assoc]
    | some name =>
      simp only [map_bind]
      congr 1
      funext found
      cases found with
      | none =>
        dsimp only
        rw [← ih' _ hafter]
        simp only [String.append_assoc]
      | some found =>
        have hbody := length_take_after_lt h found.body
        have hrest := length_drop_after_lt h found.stop
        dsimp only
        -- the bodies pass the text before them on, and so does what follows the section
        rw [String.append_assoc, foldlM_append, map_bind, bind_map_left]
        · congr 1
          funext bodies
          exact ih' _ hrest ..
        · intro out context
          rw [ih' _ hbody]
          rfl

/-! ### Rendering within limits -/

/-- Renders a template in a context. -/
def renderIn (stack : Stack) (template : String) : Metered String :=
  renderFrom 0 stack "" template.toList

/-- Renders a template against a value within limits. -/
def render (limits : Limits) (template : String) (data : Json) : Except LimitError String :=
  ((renderIn [.record data] template).run limits 0).1

end Vitae.Template
