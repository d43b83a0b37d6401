import Mathlib.Data.List.TakeWhile
import Vitae.Proofs.Cut
import Vitae.Proofs.LockStep

/-!
# Templates with other names in their tags

`respellTags` writes a template anew with other names in its tags and leaves everything else as it
is: the literal texts, the marks of the tags, and the blanks around marks and names. It does so on
the text, where a new name might well be read as something else. `tokens_respellTags` says when it
is not: when a name is changed by putting one word in the place of another (`Text.Swaps`), the new
template has the tokens of the old one with other names in their tags. For words have no braces that
could end a tag, no blanks that could be trimmed, and no marks. `respellSome` does the same to some
of the tags.
-/

namespace Vitae

namespace Text

/-! ### Words in the place of others -/

/-- The code points of the characters that can stand in a word, as closed ranges in ascending
order: digits, capital letters, the underscore and small letters. -/
def wordRanges : List (Nat × Nat) := [(0x30, 0x39), (0x41, 0x5A), (0x5F, 0x5F), (0x61, 0x7A)]

/-- Whether a character can stand in a word. -/
def isWordChar (c : Char) : Bool :=
  wordRanges.any fun range => range.1 ≤ c.toNat && c.toNat ≤ range.2

/-- Whether a text is a word. -/
def isWord (s : List Char) : Bool := !s.isEmpty && s.all isWordChar

/-- `Swaps s s'`: the text `s'` is `s`, but for one word that may have another in its place. -/
inductive Swaps : List Char → List Char → Prop where
  | same (s : List Char) : Swaps s s
  | word (front back : List Char) {word word' : List Char} (h : isWord word) (h' : isWord word') :
      Swaps (front ++ word ++ back) (front ++ word' ++ back)

theorem isWord_iff {s : List Char} : isWord s ↔ s ≠ [] ∧ ∀ c ∈ s, isWordChar c := by
  simp [isWord]

theorem isBlank_of_isWordChar {c : Char} (h : isWordChar c) : isBlank c = false := by
  simp [isWordChar, wordRanges] at h
  simp [isBlank, blankRanges]
  omega

namespace Swaps

variable {s s' : List Char}

theorem append (h : Swaps s s') (front back : List Char) :
    Swaps (front ++ s ++ back) (front ++ s' ++ back) := by
  cases h with
  | same => exact .same _
  | word front' back' h h' =>
      simpa only [List.append_assoc] using Swaps.word (front ++ front') (back' ++ back) h h'

theorem cons (h : Swaps s s') (c : Char) : Swaps (c :: s) (c :: s') := by
  simpa using h.append [c] []

theorem reverse (h : Swaps s s') : Swaps s.reverse s'.reverse := by
  cases h with
  | same => exact .same _
  | @word front back word word' h h' =>
      have hreverse {w : List Char} (hw : isWord w) : isWord w.reverse := by
        simpa [isWord] using hw
      simpa only [List.reverse_append, List.append_assoc] using
        Swaps.word back.reverse front.reverse (hreverse h) (hreverse h')

/-- A text that is not empty does not become empty. -/
theorem ne_nil (h : Swaps s s') (hs : s ≠ []) : s' ≠ [] := by
  cases h with
  | same => exact hs
  | word front back h h' =>
      intro hnil
      exact (isWord_iff.mp h').1 (by simp_all)

/-- The first character stays, unless a word takes its place. -/
theorem head? (h : Swaps s s') {c : Char} (hc : s'.head? = some c) :
    s.head? = some c ∨ isWordChar c := by
  cases h with
  | same => exact .inl hc
  | @word front back word word' h h' =>
      cases front with
      | nil =>
          obtain ⟨hne, hchars⟩ := isWord_iff.mp h'
          obtain ⟨x, rest, rfl⟩ := List.exists_cons_of_ne_nil hne
          obtain rfl : x = c := by simpa using hc
          exact .inr (hchars x List.mem_cons_self)
      | cons x front => exact .inl (by simpa using hc)

/-- A text with no blanks at its ends gets none. -/
theorem trim_eq (h : Swaps s s') (hs : trim s = s) : trim s' = s' := by
  apply trim_eq_self
  · intro c hc
    rcases h.head? hc with hc | hword
    · exact isBlank_head_trim (hs.symm ▸ hc)
    · exact isBlank_of_isWordChar hword
  · intro c hc
    rcases h.reverse.head? (by simpa using hc) with hc | hword
    · exact isBlank_getLast_trim (s := s) (by rw [hs]; simpa using hc)
    · exact isBlank_of_isWordChar hword

/-- No pair of a character arises that stands in no word. -/
theorem no_pair {d : Char} (hd : isWordChar d = false) (h : Swaps s s')
    (hs : ¬ [d, d] <:+: s) : ¬ [d, d] <:+: s' := by
  cases h with
  | same => exact hs
  | @word front back word word' h h' =>
      obtain ⟨hne, hchars⟩ := isWord_iff.mp h'
      have hmem : d ∉ word' := by
        intro hmem
        simp [hchars d hmem] at hd
      have hword : ¬ [d, d] <:+: word' ++ [d] := by
        apply Template.not_infix_concat
        · intro hpair
          exact hmem (hpair.subset (by simp))
        · intro hlast
          exact hmem (List.mem_of_getLast? hlast)
      have hback : ¬ [d, d] <:+: word' ++ back := by
        apply Template.not_infix_append hword
        intro hpair
        exact hs (hpair.trans (List.suffix_append _ back).isInfix)
      have hfront : ¬ [d, d] <:+: front.reverse := by
        intro hpair
        have hpair' : [d, d] <:+: front := List.reverse_infix.mp (by simpa using hpair)
        rw [List.append_assoc] at hs
        exact hs (hpair'.trans (List.prefix_append front _).isInfix)
      -- in front of the word the same is true of the reversed texts
      have hreversed : ¬ [d, d] <:+: (word' ++ back).reverse ++ [d] := by
        apply Template.not_infix_concat
        · intro hpair
          exact hback (List.reverse_infix.mp (by simpa using hpair))
        · intro hlast
          obtain ⟨x, rest, rfl⟩ := List.exists_cons_of_ne_nil hne
          have hx : x = d := by simpa using hlast
          exact hmem (hx ▸ List.mem_cons_self)
      intro hpair
      apply Template.not_infix_append hreversed hfront
      rw [← List.reverse_append, ← List.append_assoc]
      exact List.reverse_infix.mp (by simpa using hpair)

end Swaps

/-! ### Texts between blanks -/

/-- Puts another text in the place of what stands between the blanks at the ends of a text. -/
def mapTrimmed (f : List Char → List Char) (s : List Char) : List Char :=
  s.takeWhile isBlank ++ f (trim s) ++ ((trimFront s).reverse.takeWhile isBlank).reverse

/-- A text is what trimming leaves of it, between the blanks that stay. -/
theorem mapTrimmed_id (s : List Char) : mapTrimmed id s = s := by
  have hback : trim s ++ ((trimFront s).reverse.takeWhile isBlank).reverse = trimFront s := by
    rw [trim, trimFront, ← List.reverse_append, List.takeWhile_append_dropWhile,
      List.reverse_reverse]
  rw [mapTrimmed, id, List.append_assoc, hback]
  exact List.takeWhile_append_dropWhile

theorem trim_append_of_blank {front back : List Char} (hfront : ∀ c ∈ front, isBlank c)
    (hback : ∀ c ∈ back, isBlank c) {s : List Char} (hs : trim s = s) :
    trim (front ++ s ++ back) = s := by
  have htrimFront (blanks s : List Char) (h : ∀ c ∈ blanks, isBlank c) :
      trimFront (blanks ++ s) = trimFront s := List.dropWhile_append_of_pos h
  cases hcases : s with
  | nil =>
      have hall : trimFront (front ++ back) = [] := by
        rw [htrimFront _ _ hfront]
        exact List.dropWhile_eq_nil_iff.mpr hback
      rw [List.append_nil, trim, hall]
      rfl
  | cons c rest =>
      have hhead (c' : Char) (h : (s ++ back).head? = some c') : isBlank c' = false := by
        refine isBlank_head_trim (s := s) ?_
        rw [hs]
        simpa [hcases] using h
      rw [← hcases, List.append_assoc, trim, htrimFront _ _ hfront, trimFront_eq_self hhead,
        List.reverse_append, htrimFront _ _ (by simpa using hback),
        trimFront_eq_self (fun c' h => isBlank_getLast_trim (s := s) (by rw [hs]; simpa using h)),
        List.reverse_reverse]

variable {f : List Char → List Char}

theorem swaps_mapTrimmed (hf : ∀ s, Swaps s (f s)) (s : List Char) :
    Swaps s (mapTrimmed f s) := by
  have h := (hf (trim s)).append (s.takeWhile isBlank)
    ((trimFront s).reverse.takeWhile isBlank).reverse
  rwa [show s.takeWhile isBlank ++ trim s ++ _ = s from mapTrimmed_id s] at h

/-- Trimming leaves the new text. -/
theorem trim_mapTrimmed (hf : ∀ s, Swaps s (f s)) (s : List Char) :
    trim (mapTrimmed f s) = f (trim s) := by
  refine trim_append_of_blank ?_ ?_ ((hf (trim s)).trim_eq (trim_trim s))
  · exact fun c hc => List.mem_takeWhile_imp hc
  · exact fun c hc => List.mem_takeWhile_imp (List.mem_reverse.mp hc)

end Text

namespace Template

open Text (Swaps)

/-! ### New names in the text of tags -/

/-- Works on a text as on the string of its characters. -/
def onChars (f : String → String) (s : List Char) : List Char := (f (String.ofList s)).toList

/-- The trimmed content of a tag with another path, or with another name after its mark. -/
def respellContent (path name : String → String) : List Char → List Char
  | [] => []
  | '#' :: n => '#' :: Text.mapTrimmed (onChars name) n
  | '^' :: n => '^' :: Text.mapTrimmed (onChars name) n
  | '/' :: n => '/' :: Text.mapTrimmed (onChars name) n
  | p => onChars path p

/-- What stands between the braces of a tag, with another path or name and the same blanks. -/
def respellInner (path name : String → String) (inner : List Char) : List Char :=
  Text.mapTrimmed (respellContent path name) inner

/-- A cut with another path or name in its tag. -/
def Cut.respell (path name : String → String) (c : Cut) : Cut :=
  { c with inner := respellInner path name c.inner }

/-- A template with other paths and names in its tags, and everything else as it is. -/
def respellTags (path name : String → String) (t : List Char) : List Char :=
  match _h : cut t with
  | none => t
  | some c => (c.respell path name).whole ++ respellTags path name c.after
termination_by t.length
decreasing_by exact length_after_lt _h

variable {path name : String → String}

theorem respellTags_of_none {t : List Char} (h : cut t = none) : respellTags path name t = t := by
  rw [respellTags]
  split
  · rfl
  · simp_all

theorem respellTags_of_cut {t : List Char} {c : Cut} (h : cut t = some c) :
    respellTags path name t = (c.respell path name).whole ++ respellTags path name c.after := by
  rw [respellTags]
  split
  · simp_all
  · rename_i c' h'
    obtain rfl : c = c' := by simpa [h] using h'
    rfl

/-- Whether a change of names puts one word in the place of another. -/
def SwapsWords (f : String → String) : Prop := ∀ s, Swaps s.toList (f s).toList

theorem SwapsWords.onChars {f : String → String} (hf : SwapsWords f) (s : List Char) :
    Swaps s (onChars f s) := by
  simpa [Template.onChars] using hf (String.ofList s)

theorem swaps_respellContent (hpath : SwapsWords path) (hname : SwapsWords name) (s : List Char) :
    Swaps s (respellContent path name s) := by
  unfold respellContent
  split
  · exact .same []
  · exact (Text.swaps_mapTrimmed hname.onChars _).cons '#'
  · exact (Text.swaps_mapTrimmed hname.onChars _).cons '^'
  · exact (Text.swaps_mapTrimmed hname.onChars _).cons '/'
  · exact hpath.onChars s

theorem nameOf_mapTrimmed {f : String → String} (hf : SwapsWords f) (s : List Char) :
    Tag.nameOf (Text.mapTrimmed (onChars f) s) = f (Tag.nameOf s) := by
  rw [Tag.nameOf, Text.trim_mapTrimmed hf.onChars, onChars, String.ofList_toList, Tag.nameOf]

/-- A path stays a path: it does not become empty and gets no mark in front. -/
theorem ofContent_onChars {f : String → String} (hf : SwapsWords f) {s : List Char}
    (hs : Tag.ofContent s = .substitution (String.ofList s)) :
    Tag.ofContent (onChars f s) = .substitution (f (String.ofList s)) := by
  have hmark (c : Char) (hc : c = '#' ∨ c = '^' ∨ c = '/') (rest : List Char) :
      onChars f s ≠ c :: rest := by
    intro hcons
    rcases (hf.onChars s).head? (c := c) (by rw [hcons]; rfl) with hhead | hword
    · obtain ⟨rest, rfl⟩ : ∃ rest, s = c :: rest := List.head?_eq_some_iff.mp hhead
      rcases hc with rfl | rfl | rfl <;> cases hs
    · rcases hc with rfl | rfl | rfl <;> exact absurd hword (by decide)
  have hne : onChars f s ≠ [] := (hf.onChars s).ne_nil (by rintro rfl; cases hs)
  unfold Tag.ofContent
  split
  · contradiction
  · exact absurd ‹_› (hmark '#' (by simp) _)
  · exact absurd ‹_› (hmark '^' (by simp) _)
  · exact absurd ‹_› (hmark '/' (by simp) _)
  · rw [onChars, String.ofList_toList]

/-- The tag of the new content is the old tag with another path or name. -/
theorem ofContent_respellContent (hpath : SwapsWords path) (hname : SwapsWords name)
    (s : List Char) :
    Tag.ofContent (respellContent path name s) = (Tag.ofContent s).rename path name := by
  unfold respellContent
  split
  · rfl
  · exact congrArg Tag.sectionOpen (nameOf_mapTrimmed hname _)
  · exact congrArg Tag.invertedOpen (nameOf_mapTrimmed hname _)
  · exact congrArg Tag.sectionClose (nameOf_mapTrimmed hname _)
  · have hs : Tag.ofContent s = .substitution (String.ofList s) := by
      unfold Tag.ofContent
      split <;> simp_all
    rw [ofContent_onChars hpath hs, hs]
    rfl

theorem tag_respell (hpath : SwapsWords path) (hname : SwapsWords name) (c : Cut) :
    (c.respell path name).tag = c.tag.rename path name := by
  show Tag.ofContent (Text.trim (Text.mapTrimmed _ _)) = _
  rw [Text.trim_mapTrimmed (swaps_respellContent hpath hname), ofContent_respellContent hpath hname]
  rfl

/-- A tag with another name is the first tag where the tag was, whatever follows it. -/
theorem cut_respell_append (hpath : SwapsWords path) (hname : SwapsWords name) {t : List Char}
    {c : Cut} (h : cut t = some c) (r : List Char) :
    cut ((c.respell path name).whole ++ r) = some { c.respell path name with after := r } := by
  obtain ⟨-, hopen, hclose⟩ := cut_eq_some_iff.mp h
  refine cut_eq_some_iff.mpr ⟨rfl, hopen, ?_⟩
  have hinner : Swaps c.inner (respellInner path name c.inner) :=
    Text.swaps_mapTrimmed (swaps_respellContent hpath hname) c.inner
  exact (hinner.append [] ['}']).no_pair (by decide) hclose

/-- The tags of the new template stand where those of the old one do. -/
theorem cut_respellTags (hpath : SwapsWords path) (hname : SwapsWords name) {t : List Char}
    {c : Cut} (h : cut t = some c) :
    cut (respellTags path name t) =
      some { c.respell path name with after := respellTags path name c.after } := by
  rw [respellTags_of_cut h]
  exact cut_respell_append hpath hname h _

/-- **New names in a template.** The template has the tokens that it had, with other names in its
tags. -/
theorem tokens_respellTags (hpath : SwapsWords path) (hname : SwapsWords name) (t : List Char) :
    tokens (respellTags path name t) = (tokens t).map (.rename path name) := by
  induction ht : t.length using Nat.strongRecOn generalizing t with
  | ind n ih =>
  subst ht
  cases h : cut t with
  | none =>
      rw [respellTags_of_none h, tokens_of_none h]
      rfl
  | some c =>
      rw [tokens_of_cut (cut_respellTags hpath hname h), tokens_of_cut h, List.map_cons,
        List.map_cons, ← ih _ (length_after_lt h) _ rfl]
      congr 2
      exact congrArg Token.tag (tag_respell hpath hname c)

/-! ### New names in some of the tags -/

/-- A template with other paths and names in the chosen tags. The tags are counted from zero. -/
def respellSome (path name : String → String) (chosen : Nat → Bool) (t : List Char) : List Char :=
  match _h : cut t with
  | none => t
  | some c =>
    (if chosen 0 then c.respell path name else c).whole ++
      respellSome path name (fun i => chosen (i + 1)) c.after
termination_by t.length
decreasing_by exact length_after_lt _h

/-- Tokens with other paths and names in the chosen tags. -/
def renameSome (path name : String → String) : (Nat → Bool) → List Token → List Token
  | _, [] => []
  | chosen, .text s :: rest => .text s :: renameSome path name chosen rest
  | chosen, .tag tag :: rest =>
    .tag (if chosen 0 then tag.rename path name else tag) ::
      renameSome path name (fun i => chosen (i + 1)) rest

theorem respellSome_of_none {t : List Char} (h : cut t = none) (chosen : Nat → Bool) :
    respellSome path name chosen t = t := by
  rw [respellSome]
  split
  · rfl
  · simp_all

theorem respellSome_of_cut {t : List Char} {c : Cut} (h : cut t = some c) (chosen : Nat → Bool) :
    respellSome path name chosen t =
      (if chosen 0 then c.respell path name else c).whole ++
        respellSome path name (fun i => chosen (i + 1)) c.after := by
  rw [respellSome]
  split
  · simp_all
  · rename_i c' h'
    obtain rfl : c = c' := by simpa [h] using h'
    rfl

/-- **New names in some tags.** The template has the tokens that it had, with other names in the
chosen tags. -/
theorem tokens_respellSome (hpath : SwapsWords path) (hname : SwapsWords name)
    (chosen : Nat → Bool) (t : List Char) :
    tokens (respellSome path name chosen t) = renameSome path name chosen (tokens t) := by
  induction ht : t.length using Nat.strongRecOn generalizing chosen t with
  | ind n ih =>
  subst ht
  cases h : cut t with
  | none =>
      rw [respellSome_of_none h, tokens_of_none h]
      rfl
  | some c =>
      have hrest := ih _ (length_after_lt h) (fun i => chosen (i + 1)) c.after rfl
      rw [respellSome_of_cut h, tokens_of_cut h, renameSome, renameSome]
      cases chosen 0 with
      | false =>
          rw [if_neg Bool.false_ne_true, if_neg Bool.false_ne_true,
            tokens_of_cut (cut_whole_append h _), ← hrest]
          rfl
      | true =>
          rw [if_pos rfl, if_pos rfl, tokens_of_cut (cut_respell_append hpath hname h _), ← hrest]
          exact congrArg (Token.text c.before :: Token.tag · :: _) (tag_respell hpath hname c)

/-- Each tag is in a pair with what becomes of it, if it is in one with itself as well. -/
theorem paired_renameSome {pair : Tag → Tag → Prop} (hself : ∀ tag, pair tag tag)
    (hrename : ∀ tag, pair tag (tag.rename path name)) (chosen : Nat → Bool) (ts : List Token) :
    List.Forall₂ (Token.Paired pair) ts (renameSome path name chosen ts) := by
  induction ts generalizing chosen with
  | nil => exact .nil
  | cons token rest ih =>
      cases token with
      | text s => exact .cons (.text s) (ih chosen)
      | tag tag =>
          refine .cons (.tag ?_) (ih _)
          split
          · exact hrename tag
          · exact hself tag

end Template

end Vitae
