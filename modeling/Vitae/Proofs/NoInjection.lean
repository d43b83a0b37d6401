import Mathlib.Control.Monad.Basic
import Vitae.Proofs.Hereditary
import Vitae.Proofs.Reference
import Vitae.Proofs.Safe

/-!
# No markup from the data

A page holds no markup but that of the template, of the marked values among the data, and the fixed
pieces in which résumé entries are shown. The invariant is `MarkersSafe`: every marked value,
however deep it lies, holds a safe text. It holds of everything that a path leads to, so of every
value that a template can show and of every frame that a section can put on the context
(`Reaches.markersSafe`).

The data of a résumé has the invariant whatever the payload was (`markersSafe_templateData`), since
the only marked values in it are the two that are made of escaped texts.
-/

namespace Vitae

open Html (Safe)

/-! ### Marked values -/

namespace Json

/-- Whether every marked value in a value holds a safe text. -/
inductive MarkersSafe : Json → Prop where
  | null : MarkersSafe .null
  | bool (b : Bool) : MarkersSafe (.bool b)
  | num (n : Number) : MarkersSafe (.num n)
  | str (s : String) : MarkersSafe (.str s)
  | arr {items : List Json} (h : ∀ item ∈ items, MarkersSafe item) : MarkersSafe (.arr items)
  | obj {fields : Fields} (hself : ∀ markup, Html.safe? (.obj fields) = some markup → Safe markup)
      (h : ∀ field ∈ fields, MarkersSafe field.2) : MarkersSafe (.obj fields)

theorem hereditary_markersSafe : Hereditary MarkersSafe where
  items items h := by
    cases h with
    | arr h => exact h
  fields fields h := by
    cases h with
    | obj _ h => exact h

theorem MarkersSafe.safe {value : Json} (h : MarkersSafe value) {markup : String}
    (hmarkup : Html.safe? value = some markup) : Safe markup := by
  cases h with
  | obj hself _ => exact hself markup hmarkup
  | _ => simp [Html.safe?] at hmarkup

/-- The invariant is a condition on every object within a value. -/
theorem markersSafe_of_everywhere {value : Json}
    (h : value.Everywhere fun fields =>
      ∀ markup, Html.safe? (.obj fields) = some markup → Safe markup) : MarkersSafe value := by
  induction h with
  | null => exact .null
  | bool b => exact .bool b
  | num n => exact .num n
  | str s => exact .str s
  | arr _ ih => exact .arr ih
  | obj hself _ ih => exact .obj hself ih

theorem safe_of_safe? {text : String} (h : Safe text) (markup : String)
    (hmarkup : Html.safe? (Html.safe text) = some markup) : Safe markup := by
  obtain rfl : text = markup := Option.some.inj ((Html.safe?_safe text).symm.trans hmarkup)
  exact h

theorem markersSafe_safe {markup : String} (h : Safe markup) : MarkersSafe (Html.safe markup) := by
  refine .obj (safe_of_safe? h) ?_
  intro field hfield
  obtain rfl := List.mem_singleton.mp hfield
  exact .str markup

end Json

/-! ### Values that a template can reach -/

namespace Template

/-- Whether every marked value in a context holds a safe text. -/
def Stack.MarkersSafe (stack : Stack) : Prop := ∀ frame ∈ stack, frame.value.MarkersSafe

/-- What a path names in a context has the invariant of the context. -/
theorem Stack.MarkersSafe.resolve? {stack : Stack} (h : stack.MarkersSafe) {path : String}
    {value : Json} (hvalue : stack.resolve? path = some value) : value.MarkersSafe :=
  Stack.All.resolve? Json.hereditary_markersSafe h hvalue

/-- Whatever a path names is shown as a safe text. -/
theorem Stack.MarkersSafe.format {stack : Stack} (h : stack.MarkersSafe) (path : String) :
    Safe (Html.format (stack.resolve? path) path) := by
  refine Html.safe_format (fun markup hmarkup => ?_) path
  obtain ⟨value, hvalue, hmarkup⟩ := Option.bind_eq_some_iff.mp hmarkup
  exact (h.resolve? hvalue).safe hmarkup

/-- The contexts of a section's body hold nothing that the context of the section does not hold. -/
theorem markersSafe_of_mem_contexts {tag : Tag} {stack context : Stack} (h : stack.MarkersSafe)
    (hcontext : context ∈ tag.contexts stack) : context.MarkersSafe :=
  Stack.All.of_mem_contexts Json.hereditary_markersSafe h hcontext

/-- The contexts that come up in rendering a template from the context `start`: the body of a
section is rendered in the contexts of its opening tag. -/
inductive Reaches (start : Stack) : Stack → Prop where
  | start : Reaches start start
  | body {stack context : Stack} {tag : Tag} (h : Reaches start stack)
      (hcontext : context ∈ tag.contexts stack) : Reaches start context

theorem Reaches.markersSafe {start stack : Stack} (h : Reaches start stack)
    (hstart : start.MarkersSafe) : stack.MarkersSafe := by
  induction h with
  | start => exact hstart
  | body _ hcontext ih => exact markersSafe_of_mem_contexts ih hcontext

/-! ### Pages -/

/-- Whether the literal texts among some tokens hold no character of markup. -/
def PlainTexts (ts : List Token) : Prop :=
  ∀ s, Token.text s ∈ ts → ∀ c ∈ s, c ∉ Html.markupChars

/-- Bodies that are safe in each of their contexts are safe one after another. -/
theorem safe_join_contexts (tag : Tag) {stack : Stack} {body : Stack → String}
    (h : stack.MarkersSafe)
    (hbody : ∀ context : Stack, context.MarkersSafe → Safe (body context)) :
    Safe (String.join ((tag.contexts stack).map body)) := by
  refine .join fun s hs => ?_
  obtain ⟨context, hcontext, rfl⟩ := List.mem_map.mp hs
  exact hbody context (markersSafe_of_mem_contexts h hcontext)

/-- What a template with plain literal texts means is safe, in every context with the invariant. -/
theorem safe_evalTokens {stack : Stack} {ts : List Token} (h : stack.MarkersSafe)
    (hplain : PlainTexts ts) : Safe (evalTokens stack ts) := by
  induction hn : ts.length using Nat.strongRecOn generalizing stack ts with
  | ind n ih =>
  subst hn
  cases ts with
  | nil => simpa [evalTokens] using Html.safe_empty
  | cons token rest =>
      have hrest : Safe (evalTokens stack rest) :=
        ih _ (Nat.lt_succ_self _) h (fun s hs => hplain s (List.mem_cons_of_mem _ hs)) rfl
      have hbody (i : Nat) (context : Stack) (hcontext : context.MarkersSafe) :
          Safe (evalTokens context (rest.take i)) :=
        ih _ (length_take_lt i token rest) hcontext
          (fun s hs => hplain s (List.mem_cons_of_mem _ (List.mem_of_mem_take hs))) rfl
      have hafter (i : Nat) : Safe (evalTokens stack (rest.drop i)) :=
        ih _ (length_drop_lt i token rest) h
          (fun s hs => hplain s (List.mem_cons_of_mem _ (List.mem_of_mem_drop hs))) rfl
      cases token with
      | text s =>
          rw [evalTokens]
          exact (Html.safe_ofList (hplain s List.mem_cons_self)).append hrest
      | tag tag =>
          cases tag with
          | empty | sectionClose name => simpa only [evalTokens] using hrest
          | substitution path =>
              rw [evalTokens]
              exact (h.format path).append hrest
          | sectionOpen name =>
              rw [evalTokens]
              cases closeAt? name 0 rest with
              | none => exact hrest
              | some i =>
                  dsimp only
                  rw [← join_map_sectionContexts]
                  exact (safe_join_contexts (.sectionOpen name) h (hbody i)).append (hafter _)
          | invertedOpen name =>
              rw [evalTokens]
              cases closeAt? name 0 rest with
              | none => exact hrest
              | some i =>
                  dsimp only
                  rw [← join_map_invertedContexts]
                  exact (safe_join_contexts (.invertedOpen name) h (hbody i)).append (hafter _)

/-- A page is safe when the literal texts of its template are plain and the data has the
invariant. -/
theorem safe_of_render {limits : Limits} {template html : String} {data : Json}
    (hdata : data.MarkersSafe) (hplain : PlainTexts (tokens template.toList))
    (h : render limits template data = .ok html) : Safe html := by
  obtain ⟨-, rfl⟩ := Metered.run_eq_ok_iff.mp h
  rw [value_renderIn]
  refine safe_evalTokens (fun frame hframe => ?_) hplain
  obtain rfl := List.mem_singleton.mp hframe
  exact hdata

end Template

/-! ### The data of a résumé -/

open Json (MarkersSafe)
open Template (tagText)

/-- The data that templates are rendered against has the invariant, whatever texts the résumé
holds. -/
theorem markersSafe_templateData (resume : Resume) : resume.templateData.MarkersSafe := by
  have hwork := Json.safe_of_safe? (Html.safe_workHtml resume.workJson)
  have heducation := Json.safe_of_safe? (Html.safe_educationHtml resume.educationJson)
  refine Json.markersSafe_of_everywhere
    (resume.everywhere_templateData ?_ hwork heducation ?_)
  · intro fields hnone markup hmarkup
    simp [Html.safe?, hnone Html.markerKey (by simp [reservedNames])] at hmarkup
  · intro fields hfields markup hmarkup
    rw [← hfields] at hmarkup
    simp [Html.safe?, Resume.templateData, Json.ofFields, Json.Fields.get?_ofList,
      Json.Fields.get?_cons, Html.markerKey] at hmarkup

/-- **No markup from the data.** The data made of any payload holds no marked value but safe texts.
Where the data of a template holds no other marked values, every path shows a safe text in every
context that a render comes to, and a template whose literal texts are plain renders to a safe
page. -/
theorem render_safe :
    (∀ payload, (normalize payload).templateData.MarkersSafe) ∧
      (∀ data : Json, data.MarkersSafe → ∀ stack, Template.Reaches [.record data] stack →
        ∀ path, Safe (Html.format (stack.resolve? path) path)) ∧
      (∀ (data : Json) (limits : Template.Limits) (template html : String), data.MarkersSafe →
        Template.PlainTexts (Template.tokens template.toList) →
          Template.render limits template data = .ok html → Safe html) ∧
      ∀ (payload : Json) (limits : Template.Limits) (template html : String),
        Template.PlainTexts (Template.tokens template.toList) →
          renderResume limits template payload = .ok html → Safe html := by
  refine ⟨fun payload => markersSafe_templateData _, fun data hdata stack hstack path => ?_,
    fun data limits template html hdata hplain h => Template.safe_of_render hdata hplain h,
    fun payload limits template html hplain h =>
      Template.safe_of_render (markersSafe_templateData _) hplain h⟩
  refine (hstack.markersSafe fun frame hframe => ?_).format path
  obtain rfl := List.mem_singleton.mp hframe
  exact hdata

/-- A list whose item is markup, with finished markup beside it. -/
theorem render_safe_marked_list :
    MarkersSafe (.obj [("a", .arr [.str "<"]), ("m", Html.safe "<ul>")]) ∧
      Template.PlainTexts (Template.tokens
        (tagText "#a" ++ tagText "." ++ tagText "/a" ++ "A" ++ tagText "m").toList) ∧
      Template.render ⟨20, 5⟩ (tagText "#a" ++ tagText "." ++ tagText "/a" ++ "A" ++ tagText "m")
        (.obj [("a", .arr [.str "<"]), ("m", Html.safe "<ul>")]) = .ok "&lt;A<ul>" ∧
      Safe "&lt;A<ul>" ∧
      Safe (Html.format (Template.Stack.resolve? [.wrapped (.str "<"),
        .record (.obj [("a", .arr [.str "<"]), ("m", Html.safe "<ul>")])] ".") ".") ∧
      renderResume ⟨20, 5⟩ (tagText "summary") (.obj [("summary", .str "<")]) = .ok "&lt;" ∧
      Safe "&lt;" := by
  have hdata : MarkersSafe (.obj [("a", .arr [.str "<"]), ("m", Html.safe "<ul>")]) := by
    have hmarkup : Safe "<ul>" := (Html.SafePiece.markup (by decide)).safe
    refine .obj (fun markup h => ?_) ?_
    · simp [Html.safe?, Html.markerKey, Json.Fields.get?_cons] at h
    · simp [MarkersSafe.arr, MarkersSafe.str, Json.markersSafe_safe hmarkup]
  have hplain : Template.PlainTexts (Template.tokens
      (tagText "#a" ++ tagText "." ++ tagText "/a" ++ "A" ++ tagText "m").toList) := by
    have htokens : Template.tokens
        (tagText "#a" ++ tagText "." ++ tagText "/a" ++ "A" ++ tagText "m").toList =
          [.text [], .tag (.sectionOpen "a"), .text [], .tag (.substitution "."), .text [],
            .tag (.sectionClose "a"), .text ['A'], .tag (.substitution "m"), .text []] := by
      decide +kernel
    rw [htokens]
    simp [Template.PlainTexts, Html.markupChars]
  have hsummary : Template.PlainTexts (Template.tokens (tagText "summary").toList) := by
    have htokens : Template.tokens (tagText "summary").toList =
        [.text [], .tag (.substitution "summary"), .text []] := by decide +kernel
    rw [htokens]
    simp [Template.PlainTexts]
  have hreach : Template.Reaches
      [.record (.obj [("a", .arr [.str "<"]), ("m", Html.safe "<ul>")])]
      [.wrapped (.str "<"), .record (.obj [("a", .arr [.str "<"]), ("m", Html.safe "<ul>")])] := by
    have hcontexts : (Template.Tag.sectionOpen "a").contexts
        [.record (.obj [("a", .arr [.str "<"]), ("m", Html.safe "<ul>")])] =
          [[.wrapped (.str "<"),
            .record (.obj [("a", .arr [.str "<"]), ("m", Html.safe "<ul>")])]] := rfl
    exact .body .start (hcontexts ▸ List.mem_singleton_self _)
  have hrender : Template.render ⟨20, 5⟩
      (tagText "#a" ++ tagText "." ++ tagText "/a" ++ "A" ++ tagText "m")
      (.obj [("a", .arr [.str "<"]), ("m", Html.safe "<ul>")]) = .ok "&lt;A<ul>" := by
    decide +kernel
  have hrendered : renderResume ⟨20, 5⟩ (tagText "summary") (.obj [("summary", .str "<")]) =
      .ok "&lt;" := by decide +kernel
  obtain ⟨-, hshown, hpage, hresume⟩ := render_safe
  exact ⟨hdata, hplain, hrender, hpage _ _ _ _ hdata hplain hrender,
    hshown _ hdata _ hreach ".", hrendered, hresume _ _ _ _ hsummary hrendered⟩

end Vitae
