import Mathlib.Control.Monad.Basic
import Vitae.Proofs.TopLevel

/-!
# Templates one after another

A template that is complete in itself can be put before another one without a difference to either:
the two together are rendered as the first is and then the second, on one count of tags.

Complete in itself (`SelfContained`) is a template in which every section that its scan comes to is
closed and in whose last literal text no tag begins, be it with one brace only. `renderFrom_seq`
shows the two renders equal as computations, by induction along the scan of the first template: at
each tag the text of the second is out of sight, since a section that is closed ends in the first
(`renderTag_exchange`), and behind the last tag there is only literal text (`renderFrom_literal`).
-/

namespace Vitae.Template

/-! ### The end of a template -/

/-- The literal text after the last tag. -/
def ending (t : List Char) : List Char :=
  match _h : cut t with
  | none => t
  | some c => ending c.after
termination_by t.length
decreasing_by exact length_after_lt _h

theorem ending_of_none {t : List Char} (h : cut t = none) : ending t = t := by
  rw [ending]
  split
  · rfl
  · simp_all

theorem ending_of_cut {t : List Char} {c : Cut} (h : cut t = some c) :
    ending t = ending c.after := by
  rw [ending]
  split
  · simp_all
  · rename_i c' h'
    obtain rfl : c = c' := by simpa [h] using h'
    rfl

theorem getLast?_tokens (t : List Char) : (tokens t).getLast? = some (.text (ending t)) := by
  induction ht : t.length using Nat.strongRecOn generalizing t with
  | ind n ih =>
  subst ht
  cases h : cut t with
  | none => rw [tokens_of_none h, ending_of_none h]; rfl
  | some c =>
      have hrest := ih _ (length_after_lt h) c.after rfl
      rw [tokens_of_cut h, ending_of_cut h, List.getLast?_cons, List.getLast?_cons, hrest]
      rfl

/-- What a sealed text is followed by ends as it does alone. -/
theorem ending_sealed_append {s : List Char} {ts : List Token} (h : Sealed s ts) (r : List Char) :
    ending (s ++ r) = ending r := by
  have hlast := getLast?_tokens (s ++ r)
  rw [h, List.getLast?_append, getLast?_tokens r] at hlast
  exact (Token.text.inj (Option.some.inj hlast)).symm

/-! ### Templates that are complete in themselves -/

/-- Whether a template is complete in itself: each section that its scan comes to is closed in it,
and its last literal text holds no pair of opening braces and does not end with one brace. -/
def SelfContained (t : List Char) : Prop :=
  (∀ d ∈ dispatches t, d.cut.Closed) ∧ ¬ ['{', '{'] <:+: ending t ∧ (ending t).getLast? ≠ some '{'

instance (t : List Char) : Decidable (SelfContained t) := inferInstanceAs (Decidable (_ ∧ _ ∧ _))

theorem SelfContained.resume {t : List Char} {c : Cut} (h : cut t = some c)
    (ht : SelfContained t) : SelfContained c.resume := by
  obtain ⟨hclosed, hopen, hlast⟩ := ht
  obtain ⟨ts, hsealed⟩ := sealed_passed h
  have hending : ending t = ending c.resume := by
    conv => lhs; rw [← passed_append_resume h]
    exact ending_sealed_append hsealed c.resume
  rw [hending] at hopen hlast
  refine ⟨fun d hd => ?_, hopen, hlast⟩
  exact hclosed (d.behind c.passed) ((mem_dispatches_iff h).mpr (.inr ⟨d, hd, rfl⟩))

/-- Rendering a template that is complete in itself together with another one is rendering one after
the other. -/
theorem renderFrom_seq {t : List Char} (ht : SelfContained t) (depth : Nat) (stack : Stack)
    (out : String) (r : List Char) :
    renderFrom depth stack out (t ++ r) =
      renderFrom depth stack out t >>= fun out => renderFrom depth stack out r := by
  induction hn : t.length using Nat.strongRecOn generalizing out t with
  | ind n ih =>
  subst hn
  cases h : cut t with
  | none =>
      obtain ⟨-, hopen, hlast⟩ := ht
      rw [ending_of_none h] at hopen hlast
      rw [renderFrom_literal (not_infix_concat hopen hlast), renderFrom_of_none h]
      rfl
  | some c =>
      -- the next template is put behind the text that the scan goes on with, out of the tag's sight
      have hclosed : c.Closed := ht.1 ⟨[], c⟩ ((mem_dispatches_iff h).mpr (.inl rfl))
      have hsplit : t ++ r = c.passed ++ (c.resume ++ r) := by
        rw [← List.append_assoc, passed_append_resume h]
      rw [hsplit, renderFrom_eq_bind (cut_passed_append h _), renderFrom_eq_bind h,
        renderTag_exchange hclosed, Cut.resume_exchange hclosed, LawfulMonad.bind_assoc]
      congr 1
      funext out
      exact ih _ (length_resume_lt h) (ht.resume h) out rfl

/-- **Two templates are rendered one after the other.** A template that is complete in itself, put
together with any other, gives what the two give in turn on the same count of tags: both texts if
both renders end well, and otherwise the limit that the first of them went over. -/
theorem renderIn_append (template next : String) (h : SelfContained template.toList)
    (stack : Stack) (limits : Limits) (used : Nat) :
    (renderIn stack (template ++ next)).run limits used =
      match (renderIn stack template).run limits used with
      | (.error e, now) => (.error e, now)
      | (.ok html, now) =>
        match (renderIn stack next).run limits now with
        | (.error e, total) => (.error e, total)
        | (.ok more, total) => (.ok (html ++ more), total) := by
  have hseq : renderIn stack (template ++ next) =
      renderIn stack template >>= fun html => renderFrom 0 stack html next.toList := by
    rw [renderIn, String.toList_append]
    exact renderFrom_seq h 0 stack "" next.toList
  have hfront (html : String) : renderFrom 0 stack html next.toList =
      (renderIn stack next).bind fun more => .done (html ++ more) := by
    rw [← Metered.map_eq_bind, renderIn, ← renderFrom_append, String.append_empty]
  rw [hseq, Metered.bind_eq_bind, Metered.run_bind]
  cases (renderIn stack template).run limits used with
  | mk result now =>
      cases result with
      | error e => rfl
      | ok html =>
          dsimp only
          rw [hfront, Metered.run_bind]
          cases (renderIn stack next).run limits now with
          | mk result total => cases result <;> rfl

/-- A section and some text are complete in themselves; the tag after them is looked at in vain when
the section has used up the scans. -/
theorem renderIn_append_section :
    SelfContained (tagText "#a" ++ "x" ++ tagText "/a" ++ "!").toList ∧
      (renderIn [.record (.obj [("a", .bool true)])]
        (tagText "#a" ++ "x" ++ tagText "/a" ++ "!" ++ tagText "a")).run ⟨4, 1⟩ 2 =
          (.error (.tagScans 4), 5) := by
  have h : SelfContained (tagText "#a" ++ "x" ++ tagText "/a" ++ "!").toList := by
    decide +kernel
  refine ⟨h, ?_⟩
  rw [renderIn_append _ _ h]
  decide +kernel

end Vitae.Template
