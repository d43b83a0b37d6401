import Vitae.Proofs.Cut
import Vitae.Proofs.Events
import Vitae.Template.Section

/-!
# Templates as lists of tokens

`tokens` divides a whole template once, into the tags and the literal texts around them. A text is
scanned again wherever a section's body is taken out of it; `sectionEndFrom_endsAt` says why this
changes nothing: the place where a section ends is decided on the tokens alone (`closeAt?`), the
body that is taken out has the tokens before the close tag for its own, and the text after the
section has the tokens after it.

The proof follows the search for the close tag. Each tag that the search passes is found again at
the same place in any beginning of the text that reaches past it (`cut_take`), and the search ends
where the literal text before the close tag is cut off, which holds no tag (`cut_before`).
-/

namespace Vitae.Template

/-- A part of a template. -/
inductive Token where
  | text (s : List Char)
  | tag (tag : Tag)
  deriving Repr, DecidableEq

/-- The parts of a template: each tag after the literal text before it, and the literal text after
the last tag. -/
def tokens (t : List Char) : List Token :=
  match _h : cut t with
  | none => [.text t]
  | some c => .text c.before :: .tag c.tag :: tokens c.after
termination_by t.length
decreasing_by exact length_after_lt _h

theorem tokens_of_none {t : List Char} (h : cut t = none) : tokens t = [.text t] := by
  rw [tokens]
  split
  · rfl
  · simp_all

theorem tokens_of_cut {t : List Char} {c : Cut} (h : cut t = some c) :
    tokens t = .text c.before :: .tag c.tag :: tokens c.after := by
  rw [tokens]
  split
  · simp_all
  · rename_i c' h'
    obtain rfl : c = c' := by simpa [h] using h'
    rfl

/-! ### Where a section ends -/

/-- The place, in the tokens after an opening tag, of the close tag that ends the section called
`name`, when `nested` sections of the same name stand open inside it. -/
def closeAt? (name : String) : Nat → List Token → Option Nat
  | _, [] => none
  | nested, .text _ :: rest => (closeAt? name nested rest).map (· + 1)
  | nested, .tag tag :: rest =>
    if tag.opens? = some name then (closeAt? name (nested + 1) rest).map (· + 1)
    else if tag = .sectionClose name then
      match nested with
      | 0 => some 0
      | nested + 1 => (closeAt? name nested rest).map (· + 1)
    else (closeAt? name nested rest).map (· + 1)

/-- The number of tags among some tokens. -/
def tagCount : List Token → Nat
  | [] => 0
  | .text _ :: rest => tagCount rest
  | .tag _ :: rest => tagCount rest + 1

theorem tagCount_append (ts ts' : List Token) :
    tagCount (ts ++ ts') = tagCount ts + tagCount ts' := by
  induction ts with
  | nil => simp [tagCount]
  | cons token rest ih =>
      cases token with
      | text s => simpa [tagCount] using ih
      | tag tag =>
          simp only [List.cons_append, tagCount, ih]
          omega

/-- How many tags are looked at to find the end of a section: those up to its close tag, and all of
them when there is none. -/
def lookahead (close? : Option Nat) (ts : List Token) : Nat :=
  match close? with
  | none => tagCount ts
  | some i => tagCount (ts.take (i + 1))

/-- A computation after a number of scans. -/
def Metered.scans {α : Type} : Nat → Metered α → Metered α
  | 0, x => x
  | n + 1, x => .scan fun _ => Metered.scans n x

theorem Metered.scans_done_bind {α β : Type} (n : Nat) (a : α) (f : α → Metered β) :
    (Metered.scans n (.done a) >>= f) = Metered.scans n (f a) := by
  induction n with
  | zero => rfl
  | succ n ih => exact congrArg Metered.scan (funext fun _ => ih)

@[simp] theorem Metered.value_scans {α : Type} (n : Nat) (x : Metered α) :
    (Metered.scans n x).value = x.value := by
  induction n with
  | zero => rfl
  | succ n ih => exact ih

@[simp] theorem Metered.events_scans {α : Type} (n : Nat) (x : Metered α) :
    (Metered.scans n x).events = .replicate n .scan ++ x.events := by
  induction n with
  | zero => rfl
  | succ n ih => exact congrArg (Event.scan :: ·) ih

/-- What the search for the end of a section in `t` comes to, given the place of the close tag among
the tokens of `t`: it looks at the tags up to there and divides `t` as the tokens are divided. -/
def EndsAt (t : List Char) (passed : Nat) (close? : Option Nat)
    (search : Metered (Option SectionEnd)) : Prop :=
  match close? with
  | none => search = .scans (lookahead none (tokens t)) (.done none)
  | some i => ∃ body stop,
      search = .scans (lookahead (some i) (tokens t))
        (.done (some ⟨passed + body, passed + stop⟩)) ∧
        tokens (t.take body) = (tokens t).take i ∧ tokens (t.drop stop) = (tokens t).drop (i + 1)

/-- A search that passes a tag ends where the search behind the tag ends. -/
theorem EndsAt.pass {t : List Char} {c : Cut} (h : cut t = some c) {passed : Nat}
    {close? : Option Nat} {search : Metered (Option SectionEnd)}
    (hrest : EndsAt c.after (passed + c.stop) close? search) :
    EndsAt t passed ((close?.map (· + 1)).map (· + 1)) (.scan fun _ => search) := by
  have ht := tokens_of_cut h
  cases close? with
  | none =>
      obtain rfl := hrest
      show _ = _
      rw [ht]
      rfl
  | some i =>
      obtain ⟨body, stop, rfl, hbody, hstop⟩ := hrest
      refine ⟨c.stop + body, c.stop + stop, ?_, ?_, ?_⟩
      · rw [ht, ← Nat.add_assoc, ← Nat.add_assoc]
        rfl
      · rw [tokens_of_cut (cut_take h body), ht, List.take_succ_cons, List.take_succ_cons, ← hbody]
        rfl
      · rw [drop_of_cut h, hstop, ht]
        rfl

/-- A search that meets its close tag ends there: the body is the literal text before the tag. -/
theorem EndsAt.close {t : List Char} {c : Cut} (h : cut t = some c) (passed : Nat) :
    EndsAt t passed (some 1)
      (.scan fun _ => .done (some ⟨passed + c.before.length, passed + c.stop⟩)) := by
  have ht := tokens_of_cut h
  refine ⟨c.before.length, c.stop, ?_, ?_, ?_⟩
  · rw [ht]
    rfl
  · have hbefore : t.take c.before.length = c.before := by
      rw [eq_of_cut h]
      exact List.take_left
    rw [hbefore, tokens_of_none (cut_before h), ht]
    rfl
  · have hdrop : t.drop c.stop = c.after := drop_of_cut h 0
    rw [hdrop, ht]
    rfl

/-- The end of a section is decided on the tokens, at every nesting. -/
theorem sectionEndFrom_endsAt (name : String) (nested passed : Nat) (t : List Char) :
    EndsAt t passed (closeAt? name nested (tokens t)) (sectionEndFrom name nested passed t) := by
  induction ht : t.length using Nat.strongRecOn generalizing nested passed t with
  | ind n ih =>
  subst ht
  cases h : cut t with
  | none =>
      rw [tokens_of_none h, sectionEndFrom_of_none h]
      show _ = _
      rw [tokens_of_none h]
      rfl
  | some c =>
      -- whatever is passed, the search goes on behind it with a count of its own
      have further (nested : Nat) :=
        (ih _ (length_after_lt h) nested (passed + c.stop) _ rfl).pass h
      rw [tokens_of_cut h, sectionEndFrom_of_cut h]
      simp only [closeAt?]
      split
      · exact further (nested + 1)
      · split
        · cases nested with
          | zero => exact EndsAt.close h passed
          | succ nested => exact further nested
        · exact further nested

/-- A section is not closed exactly when its search, which looks at every tag, finds nothing. -/
theorem closeAt?_eq_none_iff {name : String} {t : List Char} :
    closeAt? name 0 (tokens t) = none ↔ (sectionEnd name t).value = none := by
  have hend := sectionEndFrom_endsAt name 0 0 t
  cases hclose : closeAt? name 0 (tokens t) with
  | none =>
      rw [hclose] at hend
      exact iff_of_true rfl (by rw [sectionEnd, show sectionEndFrom name 0 0 t = _ from hend]; simp)
  | some i =>
      rw [hclose] at hend
      obtain ⟨body, stop, hsearch, -, -⟩ := hend
      exact iff_of_false (by simp) (by rw [sectionEnd, hsearch]; simp)

theorem events_sectionEnd_of_none {name : String} {t : List Char}
    (h : (sectionEnd name t).value = none) :
    (sectionEnd name t).events = .replicate (tagCount (tokens t)) .scan := by
  have hend := sectionEndFrom_endsAt name 0 0 t
  rw [closeAt?_eq_none_iff.mpr h] at hend
  rw [sectionEnd, show sectionEndFrom name 0 0 t = _ from hend]
  simp [lookahead]

end Vitae.Template
