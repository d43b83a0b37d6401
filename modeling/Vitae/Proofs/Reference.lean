import Vitae.Proofs.TokenRender

/-!
# Rendering as an evaluation of tokens

`evalTokens` says what a template means: its tokens are read off once, a section's body is a part of
the list of tokens, and every part leaves its own text on the page. There are no scans, no depths
and no limits in it, and no text is looked at twice.

`renderIn_eq_evalTokens` says that rendering computes this meaning under all limits that are not
reached. The text-level work is done by `renderFrom_eq_renderTokens`; what is left is that the
sequence of bodies is the concatenation of what each body leaves (`value_foldlM_enter`), by
induction on the number of tokens.
-/

namespace Vitae.Template

/-! ### The meaning of a template -/

/-- Whether a value has parts of its own. -/
def isContainer : Json → Bool
  | .obj _ | .arr _ => true
  | _ => false

/-- What a section leaves on the page, when `body` is what its body leaves in a context: once for
each item of a list; once with the object on top for an object that is no finished markup; once in
the same context for any other value that opens a section. -/
def sectionHtml (value : Option Json) (stack : Stack) (body : Stack → String) : String :=
  match value with
  | some (.arr items) =>
      String.join (items.map fun item =>
        body ((if isContainer item then .record item else .wrapped item) :: stack))
  | some value =>
      if Html.holds (some value) then
        if value.fields?.isSome ∧ Html.safe? value = none then body (.record value :: stack)
        else body stack
      else ""
  | none => ""

/-- What an inverted section leaves on the page: its body, unless the value opens a section. -/
def invertedHtml (value : Option Json) (stack : Stack) (body : Stack → String) : String :=
  if Html.holds value then "" else body stack

/-- What a list of tokens leaves on the page. -/
def evalTokens (stack : Stack) : List Token → String
  | [] => ""
  | .text s :: rest => String.ofList s ++ evalTokens stack rest
  | .tag .empty :: rest => evalTokens stack rest
  | .tag (.sectionClose _) :: rest => evalTokens stack rest
  | .tag (.substitution path) :: rest =>
      Html.format (stack.resolve? path) path ++ evalTokens stack rest
  | .tag (.sectionOpen name) :: rest =>
      match closeAt? name 0 rest with
      | none => evalTokens stack rest
      | some i =>
          sectionHtml (stack.resolve? name) stack
              (fun context => evalTokens context (rest.take i)) ++
            evalTokens stack (rest.drop (i + 1))
  | .tag (.invertedOpen name) :: rest =>
      match closeAt? name 0 rest with
      | none => evalTokens stack rest
      | some i =>
          invertedHtml (stack.resolve? name) stack
              (fun context => evalTokens context (rest.take i)) ++
            evalTokens stack (rest.drop (i + 1))
termination_by ts => ts.length
decreasing_by
  all_goals simp only [List.length_cons, List.length_take, List.length_drop]
  all_goals omega

/-! ### Bodies one after another -/

theorem join_map_ite {c : Prop} [Decidable c] (context : Stack) (body : Stack → String) :
    String.join ((if c then [context] else []).map body) = if c then body context else "" := by
  split <;> simp

/-- The contexts of a section's body, taken together, leave what the section leaves. -/
theorem join_map_sectionContexts (value : Option Json) (stack : Stack) (body : Stack → String) :
    String.join ((sectionContexts value stack).map body) = sectionHtml value stack body := by
  cases value with
  | none => simp [sectionContexts, sectionHtml]
  | some value =>
      cases value with
      | arr items =>
          simp only [sectionContexts, sectionHtml, List.map_map]
          congr 1
          refine List.map_congr_left fun item _ => ?_
          cases item <;> rfl
      | obj fields =>
          have hshape : (Json.obj fields).fields?.isSome = true := rfl
          simp only [sectionContexts, sectionHtml, hshape, true_and]
          cases h : Html.safe? (.obj fields) with
          | none => simp [Html.holds, h]
          | some markup => simp [join_map_ite]
      | _ => simp [sectionContexts, sectionHtml, join_map_ite, Json.fields?]

theorem join_map_invertedContexts (value : Option Json) (stack : Stack) (body : Stack → String) :
    String.join ((invertedContexts value stack).map body) = invertedHtml value stack body := by
  unfold invertedContexts invertedHtml
  split <;> simp

/-- Bodies rendered one after another leave their texts one after another. -/
theorem value_foldlM_enter {depth : Nat} {body : String → Stack → Metered String}
    {html : Stack → String} (h : ∀ out context, (body out context).value = out ++ html context)
    (contexts : List Stack) (out : String) :
    (contexts.foldlM (fun out context => Metered.enter depth fun _ => body out context) out).value =
      out ++ String.join (contexts.map html) := by
  induction contexts generalizing out with
  | nil => simp
  | cons context rest ih => simp [h, ih, String.append_assoc]

/-- Tokens are rendered to what they mean, after whatever stands before them. -/
theorem value_renderTokens (depth : Nat) (stack : Stack) (out : String) (ts : List Token) :
    (renderTokens depth stack out ts).value = out ++ evalTokens stack ts := by
  induction hn : ts.length using Nat.strongRecOn generalizing depth stack out ts with
  | ind n ih =>
  subst hn
  cases ts with
  | nil => rw [renderTokens, evalTokens, Metered.value_done, String.append_empty]
  | cons token rest =>
      have hrest (depth : Nat) (stack : Stack) (out : String) :=
        ih rest.length (Nat.lt_succ_self _) depth stack out rest rfl
      have htake (depth : Nat) (i : Nat) (out : String) (stack : Stack) :=
        ih (rest.take i).length (length_take_lt i token rest) depth stack out _ rfl
      have hdrop (depth : Nat) (i : Nat) (stack : Stack) (out : String) :=
        ih (rest.drop i).length (length_drop_lt i token rest) depth stack out _ rfl
      cases token with
      | text s => rw [renderTokens, evalTokens, hrest, String.append_assoc]
      | tag tag =>
          rw [renderTokens]
          cases tag with
          | empty | sectionClose name =>
              simp [evalTokens, Tag.opens?, Tag.shown, hrest]
          | substitution path =>
              simp [evalTokens, Tag.opens?, Tag.shown, hrest, String.append_assoc]
          | sectionOpen name =>
              simp only [evalTokens, Tag.opens?, Metered.value_scan, Metered.value_scans]
              cases closeAt? name 0 rest with
              | none => exact hrest ..
              | some i =>
                  simp only [Metered.value_bind, value_foldlM_enter (htake (depth + 1) i), hdrop,
                    Tag.contexts, join_map_sectionContexts, String.append_assoc]
          | invertedOpen name =>
              simp only [evalTokens, Tag.opens?, Metered.value_scan, Metered.value_scans]
              cases closeAt? name 0 rest with
              | none => exact hrest ..
              | some i =>
                  simp only [Metered.value_bind, value_foldlM_enter (htake (depth + 1) i), hdrop,
                    Tag.contexts, join_map_invertedContexts, String.append_assoc]

/-- A template is rendered to what its tokens mean. -/
theorem value_renderIn (stack : Stack) (template : String) :
    (renderIn stack template).value = evalTokens stack (tokens template.toList) := by
  rw [renderIn, renderFrom_eq_renderTokens, value_renderTokens, String.empty_append]

/-! ### Limits that are not reached -/

/-- The depths of some events have a greatest one. -/
theorem exists_greatest_depth (events : List Event) :
    ∃ greatest, ∀ bound, (∀ depth, .enter depth ∈ events → depth ≤ bound) ↔ greatest ≤ bound := by
  induction events with
  | nil => exact ⟨0, fun bound => by simp⟩
  | cons event rest ih =>
      obtain ⟨greatest, hgreatest⟩ := ih
      cases event with
      | scan => exact ⟨greatest, fun bound => by simpa using hgreatest bound⟩
      | enter depth =>
          refine ⟨max depth greatest, fun bound => ?_⟩
          rw [Nat.max_le, ← hgreatest bound]
          simp [or_imp, forall_and]

/-- **Rendering computes the meaning of the template.** A template in a context needs a certain
number of scans and a certain depth. Under limits that leave it both it renders to what its tokens
mean, however many tags were looked at before; under all other limits it does not render at all. -/
theorem renderIn_eq_evalTokens (stack : Stack) (template : String) :
    ∃ scans depth, ∀ (limits : Limits) (used : Nat) (html : String),
      ((renderIn stack template).run limits used).1 = .ok html ↔
        (0 < scans → used + scans ≤ limits.maxTagScans) ∧ depth ≤ limits.maxDepth ∧
          html = evalTokens stack (tokens template.toList) := by
  obtain ⟨depth, hdepth⟩ := exists_greatest_depth (renderIn stack template).events
  refine ⟨(renderIn stack template).events.count .scan, depth, fun limits used html => ?_⟩
  rw [Metered.run_eq_ok_iff, value_renderIn, Limits.Allow, hdepth, List.count_pos_iff, and_assoc]

-- sections may cross: the inner one is not closed within the body, and its close tag is a stray one
example : evalTokens [.record (.obj [("a", .bool true)])]
    (tokens (tagText "#a" ++ "1" ++ tagText "^b" ++ "2" ++ tagText "/a" ++ "3" ++
      tagText "/b").toList) = "123" := by decide +kernel

end Vitae.Template
