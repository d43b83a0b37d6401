import Vitae.Proofs.Tokens
import Vitae.Template.Render

/-!
# The tags that the scan of a template comes to

The scan of a template looks at one tag after another, but it does not come to all of them: behind
the opening tag of a section that is closed it goes on after the close tag, and the tags of the body
are left to the bodies' own renders. `dispatches` lists the tags that the scan itself comes to, each
with the text that was passed before.

What is passed is cut in the same way whatever stands behind it: it ends where a tag ends
(`sealed_passed`). So a part of a template may be exchanged behind any tag that the scan comes to,
and the scan comes to the exchanged part as it came to the old one. For sections this is
`sectionEnd_found`: the search for a close tag sees nothing of what stands behind the tag it finds.
-/

namespace Vitae.Template

/-! ### Texts that end where a tag ends -/

/-- The text `s` is divided into the tokens `ts` whatever text follows it. -/
def Sealed (s : List Char) (ts : List Token) : Prop := ∀ r, tokens (s ++ r) = ts ++ tokens r

theorem sealed_nil : Sealed [] [] := fun _ => rfl

theorem Sealed.append {s s' : List Char} {ts ts' : List Token} (h : Sealed s ts)
    (h' : Sealed s' ts') : Sealed (s ++ s') (ts ++ ts') := by
  intro r
  rw [List.append_assoc, h, h', List.append_assoc]

theorem sealed_whole {t : List Char} {c : Cut} (h : cut t = some c) :
    Sealed c.whole [.text c.before, .tag c.tag] :=
  fun r => tokens_of_cut (cut_whole_append h r)

/-- At a tag the search goes on behind it, or ends there, whatever text follows the tag. -/
theorem sectionEndFrom_whole {t : List Char} {c : Cut} (h : cut t = some c) (name : String)
    (nested passed : Nat) :
    (∃ further, ∀ r, sectionEndFrom name nested passed (c.whole ++ r) =
      .scan fun _ => sectionEndFrom name further (passed + c.stop) r) ∨
    ∀ r, sectionEndFrom name nested passed (c.whole ++ r) =
      .scan fun _ => .done (some ⟨passed + c.before.length, passed + c.stop⟩) := by
  have hstep (r : List Char) := sectionEndFrom_of_cut (cut_whole_append h r) name nested passed
  by_cases hopen : c.tag.opens? = some name
  · exact .inl ⟨nested + 1, fun r => (hstep r).trans (congrArg _ (funext fun _ => if_pos hopen))⟩
  · by_cases hclose : c.tag = .sectionClose name
    · have hends (r : List Char) := (hstep r).trans (congrArg _ (funext fun _ =>
        (if_neg hopen).trans (if_pos hclose)))
      cases nested with
      | zero => exact .inr hends
      | succ nested => exact .inl ⟨nested, hends⟩
    · exact .inl ⟨nested, fun r => (hstep r).trans (congrArg _ (funext fun _ =>
        (if_neg hopen).trans (if_neg hclose)))⟩

/-- A search that finds a close tag has seen nothing of what follows it: the text up to there is
sealed, and in front of any other text the search is the same. -/
theorem sectionEndFrom_found {name : String} {nested passed : Nat} {t : List Char}
    {found : SectionEnd} (h : (sectionEndFrom name nested passed t).value = some found) :
    ∃ body close after, t = body ++ close ++ after ∧
      found = ⟨passed + body.length, passed + (body ++ close).length⟩ ∧
      (∃ ts, Sealed (body ++ close) ts) ∧
      ∀ r, sectionEndFrom name nested passed (body ++ close ++ r) =
        sectionEndFrom name nested passed t := by
  induction ht : t.length using Nat.strongRecOn generalizing nested passed t with
  | ind n ih =>
  subst ht
  cases hcut : cut t with
  | none =>
      rw [sectionEndFrom_of_none hcut] at h
      cases h
  | some c =>
      have ht := eq_whole_append hcut
      rcases sectionEndFrom_whole hcut name nested passed with ⟨further, hpass⟩ | hclose
      · -- what the rest of the search finds lies behind the tag, which is part of the body
        rw [ht, hpass] at h
        obtain ⟨body, close, after, hafter, rfl, ⟨ts, hsealed⟩, hsame⟩ :=
          ih _ (length_after_lt hcut) h rfl
        refine ⟨c.whole ++ body, close, after, ?_, ?_, ?_, fun r => ?_⟩
        · conv => lhs; rw [ht, hafter]
          simp only [List.append_assoc]
        · simp only [List.length_append, Cut.length_whole, Nat.add_assoc]
        · exact ⟨_, (List.append_assoc c.whole body close).symm ▸ (sealed_whole hcut).append hsealed⟩
        · conv => rhs; rw [ht, hpass, ← hsame r]
          rw [← hpass]
          simp only [List.append_assoc]
      · -- the tag is the close tag, and the search does not look behind it
        rw [ht, hclose] at h
        obtain rfl := Option.some.inj h
        have hwhole : c.before ++ '{' :: '{' :: (c.inner ++ ['}', '}']) = c.whole := rfl
        refine ⟨c.before, '{' :: '{' :: (c.inner ++ ['}', '}']), c.after, ?_, ?_, ?_, fun r => ?_⟩
        · rw [hwhole, ← ht]
        · rw [hwhole, Cut.length_whole]
        · exact ⟨_, hwhole ▸ sealed_whole hcut⟩
        · conv => rhs; rw [ht, hclose]
          rw [hwhole, hclose]

/-- The part of a text that a section takes up may be followed by any other text. -/
theorem sectionEnd_found {name : String} {t : List Char} {found : SectionEnd}
    (h : (sectionEnd name t).value = some found) :
    found.body ≤ found.stop ∧ found.stop ≤ t.length ∧ (∃ ts, Sealed (t.take found.stop) ts) ∧
      ∀ r, sectionEnd name (t.take found.stop ++ r) = sectionEnd name t := by
  obtain ⟨body, close, after, ht, rfl, hsealed, hsame⟩ := sectionEndFrom_found h
  have htake : t.take (0 + (body ++ close).length) = body ++ close := by
    rw [Nat.zero_add, ht]
    exact List.take_left
  rw [htake]
  have hlength := congrArg List.length ht
  simp only [List.length_append] at hlength ⊢
  exact ⟨by omega, by omega, hsealed, hsame⟩

/-! ### What the scan comes to -/

namespace Cut

/-- The end of the section that begins with the tag of a cut, if one does and is closed. -/
def section? (c : Cut) : Option SectionEnd :=
  c.tag.opens?.bind fun name => (sectionEnd name c.after).value

/-- The text that the scan passes at a tag, up to where it goes on: behind the tag, or behind the
close tag of its section. -/
def passed (c : Cut) : List Char := c.whole ++ c.after.take (c.section?.elim 0 SectionEnd.stop)

/-- The text that the scan goes on with. -/
def resume (c : Cut) : List Char := c.after.drop (c.section?.elim 0 SectionEnd.stop)

theorem passed_of_none {c : Cut} (h : c.section? = none) : c.passed = c.whole := by
  simp [passed, h]

theorem passed_of_some {c : Cut} {found : SectionEnd} (h : c.section? = some found) :
    c.passed = c.whole ++ c.after.take found.stop := by
  simp [passed, h]

theorem resume_of_none {c : Cut} (h : c.section? = none) : c.resume = c.after := by
  simp [resume, h]

theorem resume_of_some {c : Cut} {found : SectionEnd} (h : c.section? = some found) :
    c.resume = c.after.drop found.stop := by
  simp [resume, h]

theorem section?_of_opens? {c : Cut} {name : String} (h : c.tag.opens? = some name) :
    c.section? = (sectionEnd name c.after).value := by
  simp [section?, h]

end Cut

theorem passed_append_resume {t : List Char} {c : Cut} (h : cut t = some c) :
    c.passed ++ c.resume = t := by
  rw [Cut.passed, Cut.resume, List.append_assoc, List.take_append_drop, ← eq_whole_append h]

theorem length_resume_lt {t : List Char} {c : Cut} (h : cut t = some c) :
    c.resume.length < t.length :=
  length_drop_after_lt h _

/-- What the scan passes at a tag ends where a tag ends. -/
theorem sealed_passed {t : List Char} {c : Cut} (h : cut t = some c) :
    ∃ ts, Sealed c.passed ts := by
  cases hsection : c.section? with
  | none => exact ⟨_, Cut.passed_of_none hsection ▸ sealed_whole h⟩
  | some found =>
      obtain ⟨name, -, hfound⟩ := Option.bind_eq_some_iff.mp hsection
      obtain ⟨-, -, ⟨ts, hsealed⟩, -⟩ := sectionEnd_found hfound
      exact ⟨_, Cut.passed_of_some hsection ▸ (sealed_whole h).append hsealed⟩

/-- A tag that the scan of a template comes to. -/
structure Dispatch where
  /-- The text that was passed before the scan looked for the tag. -/
  front : List Char
  /-- The rest of the template, cut at the tag. -/
  cut : Cut
  deriving Repr, DecidableEq

/-- The tag of a longer template, with the text in front. -/
def Dispatch.behind (passed : List Char) (d : Dispatch) : Dispatch :=
  { d with front := passed ++ d.front }

/-- The tags that the scan of a template comes to, in order. -/
def dispatches (t : List Char) : List Dispatch :=
  match _h : cut t with
  | none => []
  | some c => ⟨[], c⟩ :: (dispatches c.resume).map (.behind c.passed)
termination_by t.length
decreasing_by exact length_resume_lt _h

theorem dispatches_of_none {t : List Char} (h : cut t = none) : dispatches t = [] := by
  rw [dispatches]
  split
  · rfl
  · simp_all

theorem dispatches_of_cut {t : List Char} {c : Cut} (h : cut t = some c) :
    dispatches t = ⟨[], c⟩ :: (dispatches c.resume).map (.behind c.passed) := by
  rw [dispatches]
  split
  · simp_all
  · rename_i c' h'
    obtain rfl : c = c' := by simpa [h] using h'
    rfl

/-- The scan comes first to the first tag, and then to the tags of what it goes on with. -/
theorem mem_dispatches_iff {t : List Char} {c : Cut} (h : cut t = some c) {d : Dispatch} :
    d ∈ dispatches t ↔ d = ⟨[], c⟩ ∨ ∃ d' ∈ dispatches c.resume, d = d'.behind c.passed := by
  rw [dispatches_of_cut h, List.mem_cons, List.mem_map]
  simp only [eq_comm]

/-- Induction along the scan of a template. -/
theorem dispatches_induction {motive : List Char → Dispatch → Prop}
    (here : ∀ t c, cut t = some c → motive t ⟨[], c⟩)
    (later : ∀ t c d, cut t = some c → d ∈ dispatches c.resume → motive c.resume d →
      motive t (d.behind c.passed))
    {t : List Char} {d : Dispatch} (hd : d ∈ dispatches t) : motive t d := by
  induction ht : t.length using Nat.strongRecOn generalizing t d with
  | ind n ih =>
  subst ht
  cases h : cut t with
  | none =>
      rw [dispatches_of_none h] at hd
      cases hd
  | some c =>
      rcases (mem_dispatches_iff h).mp hd with rfl | ⟨d', hd', rfl⟩
      · exact here t c h
      · exact later t c d' h hd' (ih _ (length_resume_lt h) hd' rfl)

/-- The template is the text that was passed before a tag and the text that is cut at the tag; the
former ends where a tag ends. -/
theorem front_of_mem_dispatches {t : List Char} {d : Dispatch} (hd : d ∈ dispatches t) :
    ∃ rest, t = d.front ++ rest ∧ cut rest = some d.cut ∧ ∃ ts, Sealed d.front ts := by
  refine dispatches_induction
    (motive := fun t d => ∃ rest, t = d.front ++ rest ∧ cut rest = some d.cut ∧
      ∃ ts, Sealed d.front ts) (fun t c h => ?_) (fun t c d h _ ih => ?_) hd
  · exact ⟨t, rfl, h, [], sealed_nil⟩
  · obtain ⟨rest, hresume, hcut, ts, hsealed⟩ := ih
    obtain ⟨ts', hpassed⟩ := sealed_passed h
    refine ⟨rest, ?_, hcut, _, hpassed.append hsealed⟩
    rw [← passed_append_resume h, hresume]
    exact (List.append_assoc ..).symm

/-! ### Rendering tag by tag -/

/-- What a render does when it comes to the tag of a cut: it looks at the tag, copies the text before
it, and shows the value or renders the section that the tag asks for. -/
def renderTag (depth : Nat) (stack : Stack) (out : String) (c : Cut) : Metered String :=
  .scan fun _ =>
    let copied := out ++ String.ofList c.before
    match c.tag.opens? with
    | none => .done (copied ++ c.tag.shown stack)
    | some name => do
      match ← sectionEnd name c.after with
      | none => return copied
      | some found =>
        (c.tag.contexts stack).foldlM (fun out context =>
          .enter (depth + 1) fun _ =>
            renderFrom (depth + 1) context out (c.after.take found.body)) copied

/-- A render is its work at the first tag and then a render of what the scan goes on with. -/
theorem renderFrom_eq_bind {t : List Char} {c : Cut} (h : cut t = some c) (depth : Nat)
    (stack : Stack) (out : String) :
    renderFrom depth stack out t =
      renderTag depth stack out c >>= fun out => renderFrom depth stack out c.resume := by
  rw [renderFrom_of_cut h, renderTag, Metered.bind_eq_bind, Metered.scan_bind]
  congr 1
  funext _
  cases htag : c.tag.opens? with
  | none =>
      have hsection : c.section? = none := by simp [Cut.section?, htag]
      rw [Cut.resume_of_none hsection]
      rfl
  | some name =>
      have hsection := Cut.section?_of_opens? htag
      rw [← Metered.bind_eq_bind, LawfulMonad.bind_assoc]
      refine Metered.bind_congr_value _ ?_
      cases hfound : (sectionEnd name c.after).value with
      | none => rw [Cut.resume_of_none (hsection.trans hfound)]; rfl
      | some found => rw [Cut.resume_of_some (hsection.trans hfound)]

/-- Literal text in front is copied first. -/
theorem renderFrom_literal {s : List Char} (hs : ¬ ['{', '{'] <:+: s ++ ['{']) (depth : Nat)
    (stack : Stack) (out : String) (t : List Char) :
    renderFrom depth stack out (s ++ t) =
      renderFrom depth stack (out ++ String.ofList s) t := by
  have hcut := cut_append hs t
  cases h : cut t with
  | none =>
      rw [h] at hcut
      rw [renderFrom_of_none hcut, renderFrom_of_none h, String.ofList_append, String.append_assoc]
  | some c =>
      rw [h] at hcut
      rw [renderFrom_of_cut hcut, renderFrom_of_cut h]
      simp only [String.ofList_append, String.append_assoc]
      rfl

/-! ### Another text behind a tag -/

namespace Cut

/-- The cut with another text where the scan goes on. -/
def exchange (c : Cut) (r : List Char) : Cut :=
  { c with after := c.after.take (c.section?.elim 0 SectionEnd.stop) ++ r }

@[simp] theorem before_exchange (c : Cut) (r : List Char) : (c.exchange r).before = c.before := rfl

@[simp] theorem tag_exchange (c : Cut) (r : List Char) : (c.exchange r).tag = c.tag := rfl

theorem after_exchange_of_none {c : Cut} (h : c.section? = none) (r : List Char) :
    (c.exchange r).after = r := by
  simp [exchange, h]

theorem after_exchange_of_some {c : Cut} {found : SectionEnd} (h : c.section? = some found)
    (r : List Char) : (c.exchange r).after = c.after.take found.stop ++ r := by
  simp [exchange, h]

/-- Whether the section that begins with the tag of a cut is closed, if one begins there. -/
def Closed (c : Cut) : Prop := c.tag.opens?.isSome → c.section?.isSome

instance (c : Cut) : Decidable c.Closed :=
  inferInstanceAs (Decidable (c.tag.opens?.isSome → c.section?.isSome))

theorem Closed.cases {c : Cut} (h : c.Closed) :
    c.tag.opens? = none ∧ c.section? = none ∨
      ∃ name found, c.tag.opens? = some name ∧ c.section? = some found ∧
        (sectionEnd name c.after).value = some found := by
  cases htag : c.tag.opens? with
  | none => exact .inl ⟨rfl, by simp [section?, htag]⟩
  | some name =>
      obtain ⟨found, hfound⟩ := Option.isSome_iff_exists.mp (h (by simp [htag]))
      exact .inr ⟨name, found, rfl, hfound, section?_of_opens? htag ▸ hfound⟩

theorem section?_exchange {c : Cut} (h : c.Closed) (r : List Char) :
    (c.exchange r).section? = c.section? := by
  rcases h.cases with ⟨htag, hnone⟩ | ⟨name, found, htag, hsome, hfound⟩
  · simp [section?, htag]
  · obtain ⟨-, -, -, hsame⟩ := sectionEnd_found hfound
    have htag' : (c.exchange r).tag.opens? = some name := htag
    rw [section?_of_opens? htag', section?_of_opens? htag, after_exchange_of_some hsome, hsame]

/-- Where a section is closed, the scan goes on with the text that was put there. -/
theorem resume_exchange {c : Cut} (h : c.Closed) (r : List Char) : (c.exchange r).resume = r := by
  rcases h.cases with ⟨-, hnone⟩ | ⟨name, found, -, hsome, hfound⟩
  · rw [resume_of_none ((section?_exchange h r).trans hnone), after_exchange_of_none hnone]
  · obtain ⟨-, hstop, -, -⟩ := sectionEnd_found hfound
    rw [resume_of_some ((section?_exchange h r).trans hsome), after_exchange_of_some hsome]
    exact List.drop_left' (List.length_take_of_le hstop)

end Cut

theorem cut_passed_append {t : List Char} {c : Cut} (h : cut t = some c) (r : List Char) :
    cut (c.passed ++ r) = some (c.exchange r) := by
  rw [Cut.passed, List.append_assoc]
  exact cut_whole_append h _

/-- And the work at the tag is the same: it sees nothing of the text that was put there. -/
theorem renderTag_exchange {c : Cut} (h : c.Closed) (depth : Nat) (stack : Stack) (out : String)
    (r : List Char) : renderTag depth stack out (c.exchange r) = renderTag depth stack out c := by
  rcases h.cases with ⟨htag, -⟩ | ⟨name, found, htag, hsome, hfound⟩
  · simp only [renderTag, Cut.tag_exchange, Cut.before_exchange, htag]
  · obtain ⟨hbody, hstop, -, hsame⟩ := sectionEnd_found hfound
    have htake : (c.after.take found.stop ++ r).take found.body = c.after.take found.body := by
      rw [List.take_append_of_le_length (by rw [List.length_take_of_le hstop]; exact hbody),
        List.take_take, Nat.min_eq_left hbody]
    simp only [renderTag, Cut.tag_exchange, Cut.before_exchange, htag,
      Cut.after_exchange_of_some hsome, hsame]
    congr 1
    funext _
    refine Metered.bind_congr_value _ ?_
    rw [hfound]
    simp only [htake]

end Vitae.Template
