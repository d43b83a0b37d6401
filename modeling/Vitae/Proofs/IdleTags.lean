import Mathlib.Control.Monad.Basic
import Vitae.Proofs.TopLevel

/-!
# Tags that do nothing

Three kinds of tags leave no trace on a page when the scan of a template comes to them: an empty
tag, a close tag, and the opening tag of a section that is never closed (`Cut.Idle`). A template
without such a tag is rendered to the same page (`render_erased`).

That nothing else changes has to be seen in three places. The literal texts on both sides of the tag
are joined, and form no new tag (`renderFrom_literal`). A section that was closed before the tag
ends where it did, since its search never came to the tag (`renderTag_exchange`). And a section that
was not closed is not closed now (`closeAt?_eq_none_of_idle`): without a close tag there is less to
close it with, and the opening tag of a section that is itself not closed has never kept another one
from being closed. The render is spared the scans of the tag, so it goes over no limit that it did
not go over before (`Metered.Spares`).
-/

namespace Vitae.Template

/-! ### Computations with fewer events -/

namespace Metered

variable {α β : Type}

/-- `y.Spares x`: the computation `y` gives what `x` gives, and its events are events of `x`, in the
same order. -/
def Spares (y x : Metered α) : Prop := y.value = x.value ∧ y.events.Sublist x.events

theorem Spares.refl (x : Metered α) : x.Spares x := ⟨rfl, .refl _⟩

theorem Spares.bind {y x : Metered α} (h : y.Spares x) {g f : α → Metered β}
    (hnext : (g x.value).Spares (f x.value)) : (y >>= g).Spares (x >>= f) := by
  obtain ⟨hvalue, hevents⟩ := h
  refine ⟨?_, ?_⟩
  · rw [value_bind, value_bind, hvalue, hnext.1]
  · rw [events_bind, events_bind, hvalue]
    exact hevents.append hnext.2

/-- All events of a first part may be spared. -/
theorem Spares.of_bind {y : Metered β} {x : Metered α} {f : α → Metered β}
    (h : y.Spares (f x.value)) : y.Spares (x >>= f) := by
  refine ⟨?_, ?_⟩
  · rw [value_bind, h.1]
  · rw [events_bind]
    exact h.2.trans (List.sublist_append_right _ _)

theorem Spares.scan {y x : Metered α} (h : y.Spares x) :
    Spares (.scan fun _ => y) (.scan fun _ => x) :=
  ⟨h.1, h.2.cons_cons _⟩

/-- A run that ends well ends in the same way without some of its events. -/
theorem Spares.run_eq_ok {y x : Metered α} (h : y.Spares x) {limits : Limits} {used : Nat} {a : α}
    (hrun : (x.run limits used).1 = .ok a) : (y.run limits used).1 = .ok a := by
  obtain ⟨hallow, rfl⟩ := run_eq_ok_iff.mp hrun
  exact run_eq_ok_iff.mpr ⟨hallow.sublist h.2, h.1.symm⟩

end Metered

/-! ### Idle tags -/

/-- Whether the scan does nothing at the tag of a cut: it is empty, or a close tag, or the opening
tag of a section that is not closed. -/
def Cut.Idle (c : Cut) : Prop :=
  c.tag = .empty ∨ (∃ name, c.tag = .sectionClose name) ∨ c.tag.opens?.isSome ∧ c.section? = none

/-- The template of a tag without this tag. -/
def Dispatch.erased (d : Dispatch) : List Char := d.front ++ (d.cut.before ++ d.cut.after)

theorem erased_behind (passed : List Char) (d : Dispatch) :
    (d.behind passed).erased = passed ++ d.erased :=
  List.append_assoc ..

/-- No section begins with an idle tag that the scan would pass. -/
theorem Cut.Idle.section?_eq_none {c : Cut} (h : c.Idle) : c.section? = none := by
  rcases h with htag | ⟨name, htag⟩ | ⟨-, hnone⟩
  · simp [section?, htag, Tag.opens?]
  · simp [section?, htag, Tag.opens?]
  · exact hnone

/-- The text before an idle tag is copied, and that is all. -/
theorem Cut.Idle.value_renderTag {c : Cut} (h : c.Idle) (depth : Nat) (stack : Stack)
    (out : String) : (renderTag depth stack out c).value = out ++ String.ofList c.before := by
  rcases h with htag | ⟨name, htag⟩ | ⟨hopen, hnone⟩
  · simp [renderTag, htag, Tag.opens?, Tag.shown]
  · simp [renderTag, htag, Tag.opens?, Tag.shown]
  · obtain ⟨name, htag⟩ := Option.isSome_iff_exists.mp hopen
    rw [Cut.section?_of_opens? htag] at hnone
    simp [renderTag, htag, hnone]

/-! ### Sections that are not closed -/

/-- The number of sections called `name` that stand open after a token; nothing when the token
closes the section that is searched. -/
def nest (name : String) (nested : Nat) : Token → Option Nat
  | .text _ => some nested
  | .tag tag =>
    if tag.opens? = some name then some (nested + 1)
    else if tag = .sectionClose name then
      match nested with
      | 0 => none
      | nested + 1 => some nested
    else some nested

/-- A search that finds nothing goes on behind every token. -/
theorem closeAt?_cons_eq_none_iff {name : String} {nested : Nat} {token : Token} {ts : List Token} :
    closeAt? name nested (token :: ts) = none ↔
      ∃ n, nest name nested token = some n ∧ closeAt? name n ts = none := by
  cases token with
  | text s => simp [closeAt?, nest]
  | tag tag =>
      simp only [closeAt?, nest]
      split
      · simp
      · split
        · cases nested <;> simp
        · simp

theorem closeAt?_text_eq_none_iff {name : String} {nested : Nat} {s : List Char}
    {ts : List Token} :
    closeAt? name nested (.text s :: ts) = none ↔ closeAt? name nested ts = none := by
  simp [closeAt?]

theorem le_nest_of_le {name : String} {nested more n : Nat} {token : Token}
    (h : nest name nested token = some n) (hle : nested ≤ more) :
    ∃ m, nest name more token = some m ∧ n ≤ m := by
  cases token with
  | text s => exact ⟨more, rfl, Option.some.inj h ▸ hle⟩
  | tag tag =>
      simp only [nest] at h ⊢
      split at h
      · rename_i hopen
        exact ⟨more + 1, if_pos hopen, Option.some.inj h ▸ Nat.succ_le_succ hle⟩
      · rename_i hopen
        split at h
        · rename_i hclose
          cases nested with
          | zero => cases h
          | succ nested =>
              obtain ⟨more, rfl⟩ := Nat.exists_eq_succ_of_ne_zero (by omega : more ≠ 0)
              refine ⟨more, ?_, Option.some.inj h ▸ Nat.le_of_succ_le_succ hle⟩
              rw [if_neg hopen, if_pos hclose]
        · rename_i hclose
          refine ⟨more, ?_, Option.some.inj h ▸ hle⟩
          rw [if_neg hopen, if_neg hclose]

/-- More open sections of the same name do not help to close a section. -/
theorem closeAt?_eq_none_of_le {name : String} {ts : List Token} {nested more : Nat}
    (h : closeAt? name nested ts = none) (hle : nested ≤ more) : closeAt? name more ts = none := by
  induction ts generalizing nested more with
  | nil => rfl
  | cons token rest ih =>
      obtain ⟨n, hnest, hrest⟩ := closeAt?_cons_eq_none_iff.mp h
      obtain ⟨m, hmore, hle⟩ := le_nest_of_le hnest hle
      exact closeAt?_cons_eq_none_iff.mpr ⟨m, hmore, ih hrest hle⟩

/-- Whether a section is closed behind some tokens is decided by what follows them. -/
theorem closeAt?_append_eq_none {name : String} {ts ts' : List Token}
    (hends : ∀ n, closeAt? name n ts = none → closeAt? name n ts' = none) (front : List Token)
    {nested : Nat} (h : closeAt? name nested (front ++ ts) = none) :
    closeAt? name nested (front ++ ts') = none := by
  induction front generalizing nested with
  | nil => exact hends nested h
  | cons token front ih =>
      obtain ⟨n, hnest, hrest⟩ := closeAt?_cons_eq_none_iff.mp h
      exact closeAt?_cons_eq_none_iff.mpr ⟨n, hnest, ih hrest⟩

/-- Without an idle tag no more sections are closed. -/
theorem closeAt?_eq_none_of_idle {c : Cut} (hidle : c.Idle) {name : String} {nested : Nat}
    (h : closeAt? name nested (.tag c.tag :: tokens c.after) = none) :
    closeAt? name nested (tokens c.after) = none := by
  obtain ⟨n, hnest, hrest⟩ := closeAt?_cons_eq_none_iff.mp h
  rcases hidle with htag | ⟨closed, htag⟩ | ⟨hopen, hnone⟩
  · obtain rfl : nested = n := by simpa [nest, htag, Tag.opens?] using hnest
    exact hrest
  · -- a close tag that is passed was counted against a section that stood open
    have hle : n ≤ nested := by
      simp only [nest, htag, Tag.opens?, reduceCtorEq, if_false] at hnest
      split at hnest
      · cases nested with
        | zero => cases hnest
        | succ nested => exact Option.some.inj hnest ▸ Nat.le_succ nested
      · exact Nat.le_of_eq (Option.some.inj hnest).symm
    exact closeAt?_eq_none_of_le hrest hle
  · obtain ⟨opened, htag⟩ := Option.isSome_iff_exists.mp hopen
    by_cases hname : opened = name
    · -- what follows the tag closes no section of its name at all
      subst hname
      rw [Cut.section?_of_opens? htag] at hnone
      exact closeAt?_eq_none_of_le (closeAt?_eq_none_iff.mpr hnone) (Nat.zero_le nested)
    · have hclose : c.tag ≠ .sectionClose name := by
        intro heq
        rw [heq] at htag
        cases htag
      obtain rfl : nested = n := by simpa [nest, htag, hname, hclose] using hnest
      exact hrest

/-! ### The template without the tag -/

/-- Literal text in front of a text lengthens its first token. -/
theorem tokens_literal {s : List Char} (hs : ¬ ['{', '{'] <:+: s ++ ['{']) (t : List Char) :
    ∃ first rest, tokens t = .text first :: rest ∧ tokens (s ++ t) = .text (s ++ first) :: rest := by
  have hcut := cut_append hs t
  cases h : cut t with
  | none =>
      rw [h] at hcut
      exact ⟨t, [], tokens_of_none h, tokens_of_none hcut⟩
  | some c =>
      rw [h] at hcut
      exact ⟨_, _, tokens_of_cut h, tokens_of_cut hcut⟩

/-- The tokens on both sides of a tag that the scan comes to, with the tag and without it. -/
theorem tokens_erased {t : List Char} {d : Dispatch} (hd : d ∈ dispatches t) :
    ∃ front first rest,
      tokens t = front ++ .text d.cut.before :: .tag d.cut.tag :: tokens d.cut.after ∧
      tokens d.cut.after = .text first :: rest ∧
      tokens d.erased = front ++ .text (d.cut.before ++ first) :: rest := by
  obtain ⟨after, rfl, hcut, front, hsealed⟩ := front_of_mem_dispatches hd
  obtain ⟨first, rest, hafter, herased⟩ :=
    tokens_literal (cut_eq_some_iff.mp hcut).2.1 d.cut.after
  refine ⟨front, first, rest, ?_, hafter, ?_⟩
  · rw [hsealed, tokens_of_cut hcut]
  · rw [Dispatch.erased, hsealed, herased]

/-- A section that is not closed is not closed without an idle tag, which is one tag less to look
at. -/
theorem spares_sectionEnd {t : List Char} {d : Dispatch} (hd : d ∈ dispatches t)
    (hidle : d.cut.Idle) {name : String} (h : (sectionEnd name t).value = none) :
    (sectionEnd name d.erased).Spares (sectionEnd name t) := by
  obtain ⟨front, first, rest, ht, hafter, herased⟩ := tokens_erased hd
  have hnone : (sectionEnd name d.erased).value = none := by
    rw [← closeAt?_eq_none_iff] at h ⊢
    rw [ht] at h
    rw [herased]
    refine closeAt?_append_eq_none (fun n hn => ?_) front h
    rw [closeAt?_text_eq_none_iff] at hn ⊢
    have hrest := closeAt?_eq_none_of_idle hidle hn
    rwa [hafter, closeAt?_text_eq_none_iff] at hrest
  refine ⟨hnone.trans h.symm, ?_⟩
  rw [events_sectionEnd_of_none h, events_sectionEnd_of_none hnone, ht, herased, hafter]
  simp only [tagCount_append, tagCount]
  exact List.replicate_sublist_replicate _ |>.mpr (by omega)

/-- At the opening tag of a section that is not closed, a text that spares the search spares the
render as much. -/
theorem spares_renderTag {c : Cut} {name : String} {r : List Char}
    (htag : c.tag.opens? = some name) (hnone : c.section? = none)
    (hsearch : (sectionEnd name r).Spares (sectionEnd name c.after)) (depth : Nat) (stack : Stack)
    (out : String) :
    (renderTag depth stack out (c.exchange r)).Spares (renderTag depth stack out c) ∧
      (c.exchange r).resume = r := by
  have hunclosed := (Cut.section?_of_opens? htag).symm.trans hnone
  have hafter := Cut.after_exchange_of_none hnone r
  refine ⟨?_, ?_⟩
  · simp only [renderTag, Cut.tag_exchange, Cut.before_exchange, htag, hafter]
    refine .scan (.bind hsearch ?_)
    rw [hunclosed]
    exact .refl _
  · have htag' : (c.exchange r).tag.opens? = some name := htag
    have hsection : (c.exchange r).section? = none := by
      rw [Cut.section?_of_opens? htag', hafter, hsearch.1, hunclosed]
    rw [Cut.resume_of_none hsection, hafter]

/-- Rendering without an idle tag comes to the same. -/
theorem spares_renderFrom {t : List Char} {d : Dispatch} (hd : d ∈ dispatches t)
    (hidle : d.cut.Idle) (depth : Nat) (stack : Stack) (out : String) :
    (renderFrom depth stack out d.erased).Spares (renderFrom depth stack out t) := by
  refine dispatches_induction
    (motive := fun t d => d.cut.Idle → ∀ out,
      (renderFrom depth stack out d.erased).Spares (renderFrom depth stack out t))
    (fun t c h hidle out => ?_) (fun t c d h hd ih hidle out => ?_) hd hidle out
  · -- the literal texts around the tag are joined
    have hliteral := renderFrom_literal (cut_eq_some_iff.mp h).2.1 depth stack out c.after
    rw [show Dispatch.erased ⟨[], c⟩ = c.before ++ c.after from rfl, hliteral,
      renderFrom_eq_bind h, Cut.resume_of_none hidle.section?_eq_none]
    refine .of_bind ?_
    rw [hidle.value_renderTag]
    exact .refl _
  · rw [erased_behind, renderFrom_eq_bind (cut_passed_append h _), renderFrom_eq_bind h]
    -- the search of a section that is closed ends before the idle tag; any other one runs through it
    by_cases hclosed : c.Closed
    · rw [renderTag_exchange hclosed, Cut.resume_exchange hclosed]
      exact .bind (.refl _) (ih hidle _)
    · obtain ⟨hopen, hnone⟩ := Classical.not_imp.mp hclosed
      obtain ⟨name, htag⟩ := Option.isSome_iff_exists.mp hopen
      rw [Option.not_isSome_iff_eq_none] at hnone
      rw [Cut.resume_of_none hnone] at hd ih ⊢
      have hsearch := spares_sectionEnd hd hidle ((Cut.section?_of_opens? htag).symm.trans hnone)
      obtain ⟨htags, hresume⟩ := spares_renderTag htag hnone hsearch depth stack out
      rw [hresume]
      exact .bind htags (ih hidle _)

/-- **Idle tags are invisible.** When the scan of a template comes to an idle tag and the template
renders within some limits, the template without this tag renders to the same page within the same
limits. -/
theorem render_erased (template : String) (d : Dispatch) (hd : d ∈ dispatches template.toList)
    (hidle : d.cut.Idle) (limits : Limits) (data : Json) (html : String)
    (h : render limits template data = .ok html) :
    template.toList = d.front ++ (d.cut.before ++
        (tagText (String.ofList d.cut.inner)).toList ++ d.cut.after) ∧
      render limits (String.ofList (d.front ++ (d.cut.before ++ d.cut.after))) data = .ok html := by
  constructor
  · obtain ⟨rest, ht, hcut, -⟩ := front_of_mem_dispatches hd
    rw [ht, eq_of_cut hcut]
    simp [tagText]
  · have hspares := spares_renderFrom hd hidle 0 [.record data] ""
    rw [render, renderIn] at h ⊢
    rw [String.toList_ofList]
    exact hspares.run_eq_ok h

/-- The second of two sections that are not closed is left out; the close tag behind it would have
closed neither. -/
theorem render_erased_unclosed :
    let template := tagText "#a" ++ "1" ++ tagText "#a" ++ "2" ++ tagText "/b"
    let d : Dispatch := ⟨(tagText "#a").toList, ['1'], ['#', 'a'], ("2" ++ tagText "/b").toList⟩
    d ∈ dispatches template.toList ∧ d.cut.Idle ∧
      render {} template (.obj []) = .ok "12" ∧
      render {} (tagText "#a" ++ "12" ++ tagText "/b") (.obj []) = .ok "12" := by
  intro template d
  have hd : d ∈ dispatches template.toList := by decide +kernel
  have hidle : d.cut.Idle := .inr (.inr ⟨by decide +kernel, by decide +kernel⟩)
  have h : render {} template (.obj []) = .ok "12" := by decide +kernel
  obtain ⟨-, herased⟩ := render_erased template d hd hidle {} (.obj []) "12" h
  exact ⟨hd, hidle, h, herased⟩

end Vitae.Template
