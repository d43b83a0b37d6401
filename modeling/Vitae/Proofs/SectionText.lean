import Vitae.Proofs.Concatenation
import Vitae.Proofs.ScanCost
import Vitae.Proofs.Unmentioned

/-!
# A section as it is written

`sectionText` writes a section: its opening tag, its body and its close tag. The search for the
close tag finds the one that was written, and takes the whole body, when the body has no tag of the
same name to open or close a section and no braces at its end that could join the close tag
(`IsBody`). Tags of other names, closed or not, make no difference.

On tokens this says that the body's tokens stand between the two tags unchanged
(`tokens_sectionText`); `renderFrom_sectionText` is what a render does with such a section, wherever
it stands and whatever follows it.
-/

namespace Vitae.Template

/-! ### Names and bodies -/

/-- Whether a name is read from a tag as it was written: it is trimmed and has no closing brace. -/
structure IsName (name : String) : Prop where
  trimmed : Text.trimmed name = name
  noBrace : '}' ∉ name.toList

/-- Whether a text can be the body of a section of this name: none of its tags opens or closes a
section of the name, the text after its last tag holds no pair of opening braces, and it does not
end with one brace. -/
structure IsBody (name : String) (body : List Char) : Prop where
  apart : ∀ placed ∈ allTags body,
    placed.tag.opens? ≠ some name ∧ placed.tag ≠ .sectionClose name
  noPair : ¬ ['{', '{'] <:+: ending body
  noBrace : body.getLast? ≠ some '{'

/-- A section as it is written, with this mark in its opening tag. -/
def sectionText (mark name body : String) : String :=
  tagText (mark ++ name) ++ body ++ tagText ("/" ++ name)

theorem ending_suffix (t : List Char) : ending t <:+ t := by
  induction ht : t.length using Nat.strongRecOn generalizing t with
  | ind n ih =>
  subst ht
  cases h : cut t with
  | none => exact ⟨[], ending_of_none h⟩
  | some c =>
      rw [ending_of_cut h]
      refine (ih _ (length_after_lt h) c.after rfl).trans ⟨c.whole, ?_⟩
      exact (eq_whole_append h).symm

/-- The literal text at the end of a body does not end with a brace either. -/
theorem IsBody.ending_noBrace {name : String} {body : List Char} (h : IsBody name body) :
    (ending body).getLast? ≠ some '{' := by
  intro hlast
  obtain ⟨front, hbody⟩ := ending_suffix body
  apply h.noBrace
  rw [← hbody, List.getLast?_append, hlast]
  rfl

/-- The tags of a body let the search for the end of its section pass. -/
theorem IsBody.apart_of_mem {name : String} {body : List Char} (h : IsBody name body) {tag : Tag}
    (htag : .tag tag ∈ tokens body) : tag.opens? ≠ some name ∧ tag ≠ .sectionClose name := by
  obtain ⟨placed, hmem, rfl⟩ := mem_tagsFrom_of_mem_tokens htag 0
  exact h.apart placed hmem

/-! ### Tags with a name -/

theorem not_infix_of_not_mem {d : Char} {s : List Char} (h : d ∉ s) :
    ¬ [d, d] <:+: s ++ [d] := by
  refine not_infix_concat (fun hpair => ?_) (fun hlast => ?_)
  · exact h (hpair.subset List.mem_cons_self)
  · exact h (List.mem_of_getLast? hlast)

theorem IsName.nameOf {name : String} (h : IsName name) : Tag.nameOf name.toList = name :=
  h.trimmed

/-- A mark in front of a trimmed name leaves nothing to trim. -/
theorem IsName.trim_mark {name : String} (h : IsName name) {mark : Char}
    (hmark : Text.isBlank mark = false) :
    Text.trim (mark :: name.toList) = mark :: name.toList := by
  refine Text.trim_eq_self (fun c hc => ?_) (fun c hc => ?_)
  · obtain rfl : mark = c := Option.some.inj hc
    exact hmark
  · rw [List.getLast?_cons] at hc
    cases hlast : name.toList.getLast? with
    | none =>
        rw [hlast] at hc
        obtain rfl : mark = c := Option.some.inj hc
        exact hmark
    | some last =>
        rw [hlast] at hc
        obtain rfl : last = c := Option.some.inj hc
        have htrim : Text.trim name.toList = name.toList := by
          rw [← Text.toList_trimmed, h.trimmed]
        exact Text.isBlank_getLast_trim (htrim.symm ▸ hlast)

/-- The tags that are written with a mark and a name. -/
theorem IsName.ofInner {name : String} (h : IsName name) :
    Tag.ofInner ("#" ++ name).toList = .sectionOpen name ∧
      Tag.ofInner ("^" ++ name).toList = .invertedOpen name ∧
      Tag.ofInner ("/" ++ name).toList = .sectionClose name := by
  have hmark (mark : Char) (hblank : Text.isBlank mark = false) :
      Tag.ofInner (mark :: name.toList) = Tag.ofContent (mark :: name.toList) :=
    congrArg Tag.ofContent (h.trim_mark hblank)
  refine ⟨?_, ?_, ?_⟩
  · rw [String.toList_append]
    exact (hmark '#' (by decide)).trans (congrArg Tag.sectionOpen h.nameOf)
  · rw [String.toList_append]
    exact (hmark '^' (by decide)).trans (congrArg Tag.invertedOpen h.nameOf)
  · rw [String.toList_append]
    exact (hmark '/' (by decide)).trans (congrArg Tag.sectionClose h.nameOf)

/-- A tag with a mark and a name ends with the braces that were written. -/
theorem IsName.noPair {name : String} (h : IsName name) {mark : String}
    (hmark : '}' ∉ mark.toList) :
    ¬ ['}', '}'] <:+: (mark ++ name).toList ++ ['}'] := by
  apply not_infix_of_not_mem
  rw [String.toList_append]
  exact List.not_mem_append hmark h.noBrace

/-! ### Tokens of a section -/

/-- A tag behind a text with no open braces at its end is the next token. -/
theorem tokens_append_tagText {inner : String}
    (hinner : ¬ ['}', '}'] <:+: inner.toList ++ ['}']) {s : List Char}
    (hpair : ¬ ['{', '{'] <:+: ending s) (hlast : (ending s).getLast? ≠ some '{') (r : List Char) :
    tokens (s ++ ((tagText inner).toList ++ r)) =
      tokens s ++ .tag (Tag.ofInner inner.toList) :: tokens r := by
  induction hs : s.length using Nat.strongRecOn generalizing s with
  | ind n ih =>
  subst hs
  cases h : cut s with
  | none =>
      rw [ending_of_none h] at hpair hlast
      have hcut := cut_append (not_infix_concat hpair hlast) ((tagText inner).toList ++ r)
      rw [cut_tagText hinner, Option.map_some, List.append_nil] at hcut
      rw [tokens_of_cut hcut, tokens_of_none h]
      rfl
  | some c =>
      rw [ending_of_cut h] at hpair hlast
      have hcut := cut_whole_append h (c.after ++ ((tagText inner).toList ++ r))
      rw [← List.append_assoc, ← eq_whole_append h] at hcut
      rw [tokens_of_cut hcut, ih _ (length_after_lt h) hpair hlast rfl, tokens_of_cut h]
      rfl

/-- Tags of other sections are passed on the way to a close tag. -/
theorem closeAt?_append_close {name : String} {ts : List Token}
    (h : ∀ tag, Token.tag tag ∈ ts → tag.opens? ≠ some name ∧ tag ≠ .sectionClose name)
    (rest : List Token) :
    closeAt? name 0 (ts ++ .tag (.sectionClose name) :: rest) = some ts.length := by
  induction ts with
  | nil => simp [closeAt?, Tag.opens?]
  | cons token ts ih =>
      have hrest := ih fun tag hmem => h tag (List.mem_cons_of_mem _ hmem)
      cases token with
      | text s => rw [List.cons_append, closeAt?, hrest]; rfl
      | tag tag =>
          obtain ⟨hopen, hclose⟩ := h tag List.mem_cons_self
          rw [List.cons_append, closeAt?, if_neg hopen, if_neg hclose, hrest]
          rfl

section

variable {mark name body : String} {tag : Tag}

/-- A section has the tokens of its body between its two tags. -/
theorem tokens_sectionText (hname : IsName name) (hbody : IsBody name body.toList)
    (hmark : '}' ∉ mark.toList) (htag : Tag.ofInner (mark ++ name).toList = tag) (r : List Char) :
    tokens ((sectionText mark name body).toList ++ r) =
      .text [] :: .tag tag :: (tokens body.toList ++ .tag (.sectionClose name) :: tokens r) := by
  have hsplit : (sectionText mark name body).toList ++ r =
      (tagText (mark ++ name)).toList ++
        (body.toList ++ ((tagText ("/" ++ name)).toList ++ r)) := by
    simp [sectionText]
  have hopening := cut_tagText (hname.noPair hmark)
    (body.toList ++ ((tagText ("/" ++ name)).toList ++ r))
  obtain ⟨-, -, hclose⟩ := hname.ofInner
  rw [hsplit, tokens_of_cut hopening,
    tokens_append_tagText (hname.noPair (by decide)) hbody.noPair hbody.ending_noBrace, hclose,
    ← htag]
  rfl

/-- **A section is rendered by its body.** At a section as it is written the render looks at its two
tags and at the tags between them, renders the body in each of the section's contexts, and goes on
with what follows the close tag. -/
theorem renderFrom_sectionText (hname : IsName name) (hbody : IsBody name body.toList)
    (hmark : '}' ∉ mark.toList) (htag : Tag.ofInner (mark ++ name).toList = tag)
    (hopen : tag.opens? = some name) (depth : Nat) (stack : Stack) (out : String)
    (r : List Char) :
    renderFrom depth stack out ((sectionText mark name body).toList ++ r) =
      .scans (tagCount (tokens body.toList) + 2) (do
        let bodies ← (tag.contexts stack).foldlM (fun out context =>
          .enter (depth + 1) fun _ => renderFrom (depth + 1) context out body.toList) out
        renderFrom depth stack bodies r) := by
  have hclose := closeAt?_append_close (fun _ htag => hbody.apart_of_mem htag) (tokens r)
  have htake : (tokens body.toList ++ .tag (.sectionClose name) :: tokens r).take
      (tokens body.toList).length = tokens body.toList := List.take_left
  have hbehind : (tokens body.toList ++ .tag (.sectionClose name) :: tokens r).drop
      ((tokens body.toList).length + 1) = tokens r := by
    rw [← List.drop_drop, List.drop_left]
    rfl
  have hseen : lookahead (some (tokens body.toList).length)
      (tokens body.toList ++ .tag (.sectionClose name) :: tokens r) =
        tagCount (tokens body.toList) + 1 := by
    rw [lookahead, tagCount_take_of_closeAt? hclose, htake]
  rw [renderFrom_eq_renderTokens, tokens_sectionText hname hbody hmark htag, renderTokens,
    renderTokens, hopen]
  simp only [hclose, htake, hbehind, hseen, renderFrom_eq_renderTokens, String.ofList_nil,
    String.append_empty]
  rfl

/-- A section with nothing behind it. -/
theorem renderFrom_sectionText_nil (hname : IsName name) (hbody : IsBody name body.toList)
    (hmark : '}' ∉ mark.toList) (htag : Tag.ofInner (mark ++ name).toList = tag)
    (hopen : tag.opens? = some name) (depth : Nat) (stack : Stack) (out : String) :
    renderFrom depth stack out (sectionText mark name body).toList =
      .scans (tagCount (tokens body.toList) + 2)
        ((tag.contexts stack).foldlM (fun out context =>
          .enter (depth + 1) fun _ => renderFrom (depth + 1) context out body.toList) out) := by
  have hend (out : String) : renderFrom depth stack out [] = pure out := by
    rw [renderFrom_of_none cut_nil, String.ofList_nil, String.append_empty]
    rfl
  have hsection := renderFrom_sectionText hname hbody hmark htag hopen depth stack out []
  rw [List.append_nil] at hsection
  simpa only [hend, bind_pure] using hsection

end

end Vitae.Template
