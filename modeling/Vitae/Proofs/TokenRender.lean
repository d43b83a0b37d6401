import Vitae.Proofs.Tokens
import Vitae.Template.Render

/-!
# Rendering from tokens

`renderFrom` takes the body of each section out of the text and scans it again. `renderTokens` does
the same work on the tokens of a template, which are read off the text once; a body is a part of the
list. `renderFrom_eq_renderTokens` says that the two are one and the same computation, with the same
scans and the same bodies entered in the same order, whatever the limits are.

Facts about rendering that follow the parts of a template are proved on `renderTokens`, by induction
on the list of tokens.
-/

namespace Vitae.Template

/-- Renders tokens in a context at a depth, after the text `out`. -/
def renderTokens (depth : Nat) (stack : Stack) (out : String) : List Token → Metered String
  | [] => .done out
  | .text s :: rest => renderTokens depth stack (out ++ String.ofList s) rest
  | .tag tag :: rest => .scan fun _ =>
    match tag.opens? with
    | none => renderTokens depth stack (out ++ tag.shown stack) rest
    | some name =>
      let close? := closeAt? name 0 rest
      .scans (lookahead close? rest)
        (match close? with
        | none => renderTokens depth stack out rest
        | some i => do
          let bodies ← (tag.contexts stack).foldlM (fun out context =>
            .enter (depth + 1) fun _ => renderTokens (depth + 1) context out (rest.take i)) out
          renderTokens depth stack bodies (rest.drop (i + 1)))
termination_by ts => ts.length
decreasing_by
  all_goals simp only [List.length_cons, List.length_take, List.length_drop]
  all_goals omega

theorem length_take_lt (i : Nat) (token : Token) (rest : List Token) :
    (rest.take i).length < (token :: rest).length :=
  Nat.lt_succ_of_le (List.length_take_le' i rest)

theorem length_drop_lt (i : Nat) (token : Token) (rest : List Token) :
    (rest.drop i).length < (token :: rest).length :=
  Nat.lt_succ_of_le (List.drop_suffix i rest).length_le

/-- A text is rendered from its tokens. -/
theorem renderFrom_eq_renderTokens (depth : Nat) (stack : Stack) (out : String) (t : List Char) :
    renderFrom depth stack out t = renderTokens depth stack out (tokens t) := by
  induction ht : t.length using Nat.strongRecOn generalizing depth stack out t with
  | ind n ih =>
  subst ht
  cases h : cut t with
  | none => rw [tokens_of_none h, renderFrom_of_none h, renderTokens, renderTokens]
  | some c =>
      have hafter := length_after_lt h
      rw [tokens_of_cut h, renderFrom_of_cut h, renderTokens, renderTokens]
      congr 1
      funext _
      cases c.tag.opens? with
      | none => exact ih _ hafter depth stack _ c.after rfl
      | some name =>
          have hend := sectionEndFrom_endsAt name 0 0 c.after
          dsimp only [sectionEnd]
          cases hclose : closeAt? name 0 (tokens c.after) with
          | none =>
              rw [hclose] at hend
              rw [show sectionEndFrom name 0 0 c.after = _ from hend, Metered.scans_done_bind]
              exact congrArg _ (ih _ hafter depth stack _ c.after rfl)
          | some i =>
              rw [hclose] at hend
              obtain ⟨body, stop, hsearch, hbody, hstop⟩ := hend
              have hinner := length_take_after_lt h body
              have hrest := length_drop_after_lt h stop
              rw [hsearch, Metered.scans_done_bind, Nat.zero_add, Nat.zero_add]
              -- the body and what follows the section are scanned again; both have known tokens
              simp only [ih _ hinner _ _ _ _ rfl, ih _ hrest _ _ _ _ rfl, hbody, hstop]

end Vitae.Template
