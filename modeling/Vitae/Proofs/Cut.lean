import Vitae.Template.Tag

/-!
# Where a text is cut

`cut` divides a text at its first tag. The division is pinned down by what stands around the braces:
no pair of opening braces begins before the tag, and no pair of closing ones inside it
(`cut_eq_some_iff`); a text that is not divided holds no complete tag (`cut_eq_none_iff`). What
follows from this carries every argument about the parts of a template: what follows a tag has no
say in where the tag is (`cut_whole_append`), the literal text before a tag holds no tag of its own
(`cut_before`), and literal text put in front of a template moves its first tag and forms no new one
(`cut_append`).
-/

namespace Vitae.Template

/-! ### The first pair -/

/-- Inverting a split: the part before the pair holds no earlier pair, not even one that its last
character would form with the pair itself. -/
theorem splitPairFrom_eq_some {d : Char} {front t b a : List Char}
    (h : splitPairFrom d front t = some (b, a)) :
    ∃ b', b = front.reverse ++ b' ∧ t = b' ++ d :: d :: a ∧ ¬ [d, d] <:+: b' ++ [d] := by
  fun_induction splitPairFrom d front t with
  | case1 front x y rest hd =>
      obtain ⟨rfl, rfl⟩ := hd
      obtain ⟨rfl, rfl⟩ : front.reverse = b ∧ rest = a := by simpa using h
      refine ⟨[], by simp, rfl, ?_⟩
      intro hpair
      simpa using hpair.length_le
  | case2 front x y rest hd ih =>
      obtain ⟨b', hb, ht, hnone⟩ := ih h
      refine ⟨x :: b', by simpa using hb, by rw [ht]; rfl, ?_⟩
      intro hpair
      rcases List.infix_cons_iff.mp hpair with hfront | hlater
      · -- a pair at the very front would have been the split
        apply hd
        cases b' with
        | nil =>
            obtain ⟨hx, -⟩ := List.cons_prefix_cons.mp hfront
            obtain ⟨hy, -⟩ := List.cons.inj ht
            exact ⟨hx.symm, hy⟩
        | cons z b'' =>
            obtain ⟨hx, htail⟩ := List.cons_prefix_cons.mp hfront
            obtain ⟨hz, -⟩ := List.cons_prefix_cons.mp htail
            obtain ⟨hy, -⟩ := List.cons.inj ht
            exact ⟨hx.symm, hy.trans hz.symm⟩
      · exact hnone hlater
  | case3 => simp at h

/-- Where no earlier pair stands, the split is at the pair. -/
theorem splitPairFrom_of_not_infix {d : Char} (front b a : List Char)
    (h : ¬ [d, d] <:+: b ++ [d]) :
    splitPairFrom d front (b ++ d :: d :: a) = some (front.reverse ++ b, a) := by
  induction b generalizing front with
  | nil => simp [splitPairFrom]
  | cons x b ih =>
      have hlater : ¬ [d, d] <:+: b ++ [d] := by
        intro hb
        exact h (List.infix_cons_iff.mpr (.inr hb))
      cases b with
      | nil =>
          have hx : x ≠ d := by
            rintro rfl
            exact h List.infix_rfl
          simp [splitPairFrom, hx]
      | cons y b =>
          have hxy : ¬ (x = d ∧ y = d) := by
            rintro ⟨rfl, rfl⟩
            exact h ⟨[], b ++ [y], rfl⟩
          rw [List.cons_append, List.cons_append, splitPairFrom, if_neg hxy]
          simpa using ih (x :: front) hlater

/-- A split is at the first pair. -/
theorem splitPair_eq_some_iff {d : Char} {t b a : List Char} :
    splitPair d t = some (b, a) ↔ t = b ++ d :: d :: a ∧ ¬ [d, d] <:+: b ++ [d] := by
  constructor
  · intro h
    obtain ⟨b', rfl, ht, hnone⟩ := splitPairFrom_eq_some h
    exact ⟨ht, hnone⟩
  · rintro ⟨rfl, hnone⟩
    exact splitPairFrom_of_not_infix [] b a hnone

theorem splitPairFrom_eq_none_iff {d : Char} {front t : List Char} :
    splitPairFrom d front t = none ↔ ¬ [d, d] <:+: t := by
  fun_induction splitPairFrom d front t with
  | case1 front x y rest hd =>
      obtain ⟨rfl, rfl⟩ := hd
      exact iff_of_false (by simp) (not_not_intro ⟨[], rest, rfl⟩)
  | case2 front x y rest hd ih =>
      rw [ih, List.infix_cons_iff (a := x), not_or, iff_and_self]
      intro _ hfront
      obtain ⟨hx, htail⟩ := List.cons_prefix_cons.mp hfront
      obtain ⟨hy, -⟩ := List.cons_prefix_cons.mp htail
      exact hd ⟨hx.symm, hy.symm⟩
  | case3 front t hshort =>
      refine iff_of_true rfl fun hpair => ?_
      obtain ⟨b, a, rfl⟩ := hpair
      cases b with
      | nil => exact hshort d d a rfl
      | cons x b =>
          cases b with
          | nil => exact hshort x d (d :: a) rfl
          | cons y b => exact hshort x y (b ++ [d, d] ++ a) rfl

/-- A text is not split exactly when it holds no pair. -/
theorem splitPair_eq_none_iff {d : Char} {t : List Char} :
    splitPair d t = none ↔ ¬ [d, d] <:+: t :=
  splitPairFrom_eq_none_iff

/-- No pair begins inside a text that neither holds one nor ends with the character of one. -/
theorem length_le_of_pair {d : Char} {s front t : List Char} (hs : ¬ [d, d] <:+: s ++ [d])
    (hstart : s <+: t) (hpair : front ++ [d, d] <+: t) : s.length ≤ front.length := by
  rcases Nat.lt_or_ge front.length s.length with hlt | hle
  · exfalso
    have hfirst : front ++ [d] <+: s := by
      refine List.prefix_of_prefix_length_le (.trans ⟨[d], by simp⟩ hpair) hstart ?_
      rw [List.length_append]
      exact hlt
    -- the pair begins with a character of `s`: with the last one, or with one before it
    obtain ⟨later, rfl⟩ := hfirst
    cases later with
    | nil => exact hs ⟨front, [], by simp⟩
    | cons y later =>
        have hboth := List.prefix_of_prefix_length_le hpair hstart (by simp)
        exact hs ((List.suffix_append front [d, d]).isInfix.trans
          (hboth.trans (List.prefix_append _ _)).isInfix)
  · exact hle

theorem not_infix_append {d : Char} {s t : List Char} (hs : ¬ [d, d] <:+: s ++ [d])
    (ht : ¬ [d, d] <:+: t) : ¬ [d, d] <:+: s ++ t := by
  rintro ⟨front, after, hpair⟩
  have hle : s.length ≤ front.length :=
    length_le_of_pair hs (List.prefix_append s t) ⟨after, hpair⟩
  obtain ⟨between, rfl⟩ :=
    List.prefix_of_prefix_length_le (List.prefix_append s t) ⟨_, (by simpa using hpair)⟩ hle
  exact ht ⟨between, after, by simpa using hpair⟩

theorem not_infix_concat {d : Char} {s : List Char} (hs : ¬ [d, d] <:+: s)
    (hlast : s.getLast? ≠ some d) : ¬ [d, d] <:+: s ++ [d] := by
  rintro ⟨front, after, hpair⟩
  rcases List.eq_nil_or_concat after with rfl | ⟨after, x, rfl⟩
  · have hs : front ++ [d] = s := List.append_cancel_right (by simpa using hpair)
    exact hlast (by simp [← hs])
  · have hsplit : front ++ [d, d] ++ after ++ [x] = s ++ [d] := by simpa using hpair
    exact hs ⟨front, after, (List.append_inj' hsplit rfl).1⟩

/-! ### The first tag -/

/-- A tag as it is written. -/
def tagText (inner : String) : String := "\x7b\x7b" ++ inner ++ "\x7d\x7d"

/-- The literal text before a tag together with the tag. -/
def Cut.whole (c : Cut) : List Char := c.before ++ '{' :: '{' :: (c.inner ++ ['}', '}'])

@[simp] theorem Cut.length_whole (c : Cut) : c.whole.length = c.stop := by
  simp only [Cut.whole, Cut.stop, List.length_append, List.length_cons, List.length_nil]
  omega

/-- A text is its first tag, with what stands before it, and what follows. -/
theorem eq_whole_append {t : List Char} {c : Cut} (h : cut t = some c) :
    t = c.whole ++ c.after := by
  conv => lhs; rw [eq_of_cut h]
  simp [Cut.whole]

/-- A text is cut at its first pair of opening braces that is followed by a pair of closing ones,
and at the first pair of these. -/
theorem cut_eq_some_iff {t : List Char} {c : Cut} :
    cut t = some c ↔
      t = c.whole ++ c.after ∧ ¬ ['{', '{'] <:+: c.before ++ ['{'] ∧
        ¬ ['}', '}'] <:+: c.inner ++ ['}'] := by
  constructor
  · intro h
    refine ⟨eq_whole_append h, ?_⟩
    unfold cut at h
    split at h
    · cases h
    · rename_i b o ho
      split at h
      · cases h
      · rename_i i a ha
        obtain rfl := Option.some.inj h
        exact ⟨(splitPair_eq_some_iff.mp ho).2, (splitPair_eq_some_iff.mp ha).2⟩
  · rintro ⟨ht, hopen, hclose⟩
    have ho : splitPair '{' t = some (c.before, c.inner ++ '}' :: '}' :: c.after) :=
      splitPair_eq_some_iff.mpr ⟨by simp [ht, Cut.whole], hopen⟩
    have hc : splitPair '}' (c.inner ++ '}' :: '}' :: c.after) = some (c.inner, c.after) :=
      splitPair_eq_some_iff.mpr ⟨rfl, hclose⟩
    simp [cut, ho, hc]

/-- Whether a complete tag stands in a text: a pair of opening braces and, after it, a pair of
closing ones. -/
def HasTag (t : List Char) : Prop :=
  ∃ front inner after, t = front ++ '{' :: '{' :: (inner ++ '}' :: '}' :: after)

/-- A text is cut unless it holds no complete tag. -/
theorem cut_eq_none_iff {t : List Char} : cut t = none ↔ ¬ HasTag t := by
  constructor
  · rintro h ⟨front, inner, after, ht⟩
    unfold cut at h
    split at h
    · rename_i ho
      exact splitPair_eq_none_iff.mp ho ⟨front, inner ++ '}' :: '}' :: after, by simp [ht]⟩
    · rename_i b o ho
      obtain ⟨hsplit, hfirst⟩ := splitPair_eq_some_iff.mp ho
      -- the text is split no later than where the tag begins, so its closing braces come after
      have hle : b.length ≤ front.length :=
        length_le_of_pair hfirst ⟨'{' :: '{' :: o, hsplit.symm⟩
          ⟨inner ++ '}' :: '}' :: after, by simp [ht]⟩
      have hclose : '}' :: '}' :: after <:+ o := by
        have hsuffix : '}' :: '}' :: after <:+ t := ⟨front ++ '{' :: '{' :: inner, by simp [ht]⟩
        have hopened : o <:+ t := ⟨b ++ ['{', '{'], by simp [hsplit]⟩
        refine List.suffix_of_suffix_length_le hsuffix hopened ?_
        have hlength := congrArg List.length (hsplit.symm.trans ht)
        simp only [List.length_append, List.length_cons] at hlength ⊢
        omega
      split at h
      · rename_i hnone
        have hpair : ['}', '}'] <:+: '}' :: '}' :: after := ⟨[], after, rfl⟩
        exact splitPair_eq_none_iff.mp hnone (hpair.trans hclose.isInfix)
      · cases h
  · intro hnone
    rw [Option.eq_none_iff_forall_ne_some]
    intro c h
    exact hnone ⟨c.before, c.inner, c.after, eq_of_cut h⟩

/-- What follows a tag may be exchanged for any other text. -/
theorem cut_whole_append {t : List Char} {c : Cut} (h : cut t = some c) (r : List Char) :
    cut (c.whole ++ r) = some { c with after := r } :=
  cut_eq_some_iff.mpr ⟨rfl, (cut_eq_some_iff.mp h).2⟩

/-- A tag at the very beginning of a text. -/
theorem cut_tagText {inner : String} (h : ¬ ['}', '}'] <:+: inner.toList ++ ['}'])
    (t : List Char) : cut ((tagText inner).toList ++ t) = some ⟨[], inner.toList, t⟩ := by
  have hopen : ¬ ['{', '{'] <:+: [] ++ ['{'] := by decide
  refine cut_eq_some_iff.mpr ⟨?_, hopen, h⟩
  simp [tagText, Cut.whole]

/-- The literal text before a tag holds no tag. -/
theorem cut_before {t : List Char} {c : Cut} (h : cut t = some c) : cut c.before = none := by
  rw [Option.eq_none_iff_forall_ne_some]
  intro c' h'
  -- the opening braces of a tag in the literal text would be an earlier pair
  apply (cut_eq_some_iff.mp h).2.1
  have hc' := eq_of_cut h'
  exact ⟨c'.before, c'.inner ++ '}' :: '}' :: c'.after ++ ['{'], by rw [hc']; simp⟩

/-- Literal text put in front of a text goes before its first tag, unless there is a pair of opening
braces in it or one could begin with its last character. -/
theorem cut_append {s : List Char} (hs : ¬ ['{', '{'] <:+: s ++ ['{']) (t : List Char) :
    cut (s ++ t) = (cut t).map fun c => { c with before := s ++ c.before } := by
  cases h : cut t with
  | some c =>
      obtain ⟨ht, hopen, hclose⟩ := cut_eq_some_iff.mp h
      refine cut_eq_some_iff.mpr ⟨?_, ?_, hclose⟩
      · simp [ht, Cut.whole]
      · simpa using not_infix_append hs hopen
  | none =>
      rw [cut_eq_none_iff] at h
      rw [Option.map_none, cut_eq_none_iff]
      rintro ⟨front, inner, after, htag⟩
      have hle : s.length ≤ front.length :=
        length_le_of_pair hs (List.prefix_append s t)
          ⟨inner ++ '}' :: '}' :: after, by simp [htag]⟩
      obtain ⟨between, rfl⟩ :=
        List.prefix_of_prefix_length_le (List.prefix_append s t) ⟨_, htag.symm⟩ hle
      exact h ⟨between, inner, after, by simpa using htag⟩

/-- The beginning of a text that reaches past its first tag is cut at the same tag. -/
theorem cut_take {t : List Char} {c : Cut} (h : cut t = some c) (n : Nat) :
    cut (t.take (c.stop + n)) = some { c with after := c.after.take n } := by
  rw [eq_whole_append h, ← c.length_whole, List.take_length_add_append]
  exact cut_whole_append h _

/-- The end of a text behind its first tag is an end of what follows the tag. -/
theorem drop_of_cut {t : List Char} {c : Cut} (h : cut t = some c) (n : Nat) :
    t.drop (c.stop + n) = c.after.drop n := by
  conv => lhs; rw [eq_whole_append h, ← c.length_whole]
  exact List.drop_length_add_append ..

end Vitae.Template
