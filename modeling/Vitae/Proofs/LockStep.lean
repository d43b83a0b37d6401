import Mathlib.Control.Monad.Basic
import Mathlib.Data.List.Forall2
import Vitae.Proofs.TokenRender

/-!
# Renders in step

Two templates are rendered in step when their tags can be put in pairs: the tags of a pair show the
same, give their sections contexts that are related as the contexts they are met in are, and open
sections that end at the same place. `renderTokens_paired` says that the two are then the same
computation: the same page, the same scans and the same bodies, entered in the same order.

The templates at hand differ in the names in their tags. Where the sections end is not affected by
new names as long as names that differ stay different (`renderTokens_rename`). The proof is on
tokens, since the tags of a body are among those of the template there; on texts, a body would have
to be scanned again to see it.
-/

namespace Vitae.Template

/-! ### Other names in tags -/

/-- The tag with another path, or with another name for its section. -/
def Tag.rename (path name : String → String) : Tag → Tag
  | .empty => .empty
  | .substitution p => .substitution (path p)
  | .sectionOpen n => .sectionOpen (name n)
  | .invertedOpen n => .invertedOpen (name n)
  | .sectionClose n => .sectionClose (name n)

/-- The token with other names in its tag, if it is one. -/
def Token.rename (path name : String → String) : Token → Token
  | .text s => .text s
  | .tag found => .tag (found.rename path name)

/-- The name of the section that a tag opens or closes. -/
def Tag.section? : Tag → Option String
  | .sectionOpen n | .invertedOpen n | .sectionClose n => some n
  | .empty | .substitution _ => none

@[simp] theorem Tag.rename_id (tag : Tag) : tag.rename id id = tag := by
  cases tag <;> rfl

@[simp] theorem Token.rename_id (token : Token) : token.rename id id = token := by
  cases token <;> simp [Token.rename]

variable {path name : String → String}

theorem opens?_rename (tag : Tag) : (tag.rename path name).opens? = tag.opens?.map name := by
  cases tag <;> rfl

theorem section?_of_opens? {tag : Tag} {n : String} (h : tag.opens? = some n) :
    tag.section? = some n := by
  cases tag <;> simp_all [Tag.opens?, Tag.section?]

theorem opens?_rename_eq_iff {tag : Tag} {n : String}
    (hn : ∀ m, tag.section? = some m → name m = name n → m = n) :
    (tag.rename path name).opens? = some (name n) ↔ tag.opens? = some n := by
  rw [opens?_rename, Option.map_eq_some_iff]
  constructor
  · rintro ⟨m, hm, hname⟩
    rw [hm, hn m (section?_of_opens? hm) hname]
  · intro h
    exact ⟨n, h, rfl⟩

theorem rename_eq_sectionClose_iff {tag : Tag} {n : String}
    (hn : ∀ m, tag.section? = some m → name m = name n → m = n) :
    tag.rename path name = .sectionClose (name n) ↔ tag = .sectionClose n := by
  cases tag with
  | sectionClose m =>
      simp only [Tag.rename, Tag.sectionClose.injEq]
      exact ⟨hn m rfl, congrArg name⟩
  | _ => simp [Tag.rename]

/-! ### Tokens in pairs -/

/-- Whether two tokens are the same text, or tags that form a pair. -/
inductive Token.Paired (pair : Tag → Tag → Prop) : Token → Token → Prop where
  | text (s : List Char) : Paired pair (.text s) (.text s)
  | tag {tag tag' : Tag} (h : pair tag tag') : Paired pair (.tag tag) (.tag tag')

variable {pair : Tag → Tag → Prop}

/-- A section ends at the same place in both lists, if the tags that open and close it in the one
form pairs with those that do so in the other. -/
theorem closeAt?_paired {n n' : String}
    (hopens : ∀ tag tag', pair tag tag' → (tag'.opens? = some n' ↔ tag.opens? = some n))
    (hcloses : ∀ tag tag', pair tag tag' → (tag' = .sectionClose n' ↔ tag = .sectionClose n))
    {ts ts' : List Token} (h : List.Forall₂ (Token.Paired pair) ts ts') (nested : Nat) :
    closeAt? n' nested ts' = closeAt? n nested ts := by
  induction h generalizing nested with
  | nil => rfl
  | cons htoken _ ih =>
      cases htoken with
      | text s => simp only [closeAt?, ih]
      | tag hpair => simp only [closeAt?, hopens _ _ hpair, hcloses _ _ hpair, ih]

theorem tagCount_paired {ts ts' : List Token} (h : List.Forall₂ (Token.Paired pair) ts ts') :
    tagCount ts' = tagCount ts := by
  induction h with
  | nil => rfl
  | cons htoken _ ih => cases htoken <;> simp [tagCount, ih]

theorem lookahead_paired {ts ts' : List Token} (h : List.Forall₂ (Token.Paired pair) ts ts')
    (close? : Option Nat) : lookahead close? ts' = lookahead close? ts := by
  cases close? with
  | none => exact tagCount_paired h
  | some i => exact tagCount_paired (List.forall₂_take (i + 1) h)

/-! ### Contexts in step -/

/-- Whether a tag and its counterpart cannot be told apart in related contexts. -/
structure Tag.InStep (path name : String → String) (related : Stack → Stack → Prop) (tag : Tag) :
    Prop where
  shown : ∀ stack stack', related stack stack' →
    tag.shown stack = (tag.rename path name).shown stack'
  contexts : ∀ stack stack', related stack stack' →
    List.Forall₂ related (tag.contexts stack) ((tag.rename path name).contexts stack')

/-- What the pairs of tags in two lists of tokens have to agree on for both lists to be rendered
alike in related contexts. -/
structure Pairing (pair : Tag → Tag → Prop) (related : Stack → Stack → Prop) : Prop where
  shown : ∀ tag tag', pair tag tag' → ∀ stack stack', related stack stack' →
    tag.shown stack = tag'.shown stack'
  contexts : ∀ tag tag', pair tag tag' → ∀ stack stack', related stack stack' →
    List.Forall₂ related (tag.contexts stack) (tag'.contexts stack')
  /-- Both open a section that ends at the same place, or neither opens one. -/
  sections : ∀ tag tag', pair tag tag' → ∀ ts ts', List.Forall₂ (Token.Paired pair) ts ts' →
    tag'.opens?.map (closeAt? · 0 ts') = tag.opens?.map (closeAt? · 0 ts)

variable {related : Stack → Stack → Prop}

/-- Bodies in contexts that are related. -/
theorem foldlM_related {body body' : String → Stack → Metered String}
    (hbody : ∀ out stack stack', related stack stack' → body out stack = body' out stack')
    {contexts contexts' : List Stack} (h : List.Forall₂ related contexts contexts')
    (out : String) : contexts.foldlM body out = contexts'.foldlM body' out := by
  induction h generalizing out with
  | nil => rfl
  | cons hstack _ ih => simp only [List.foldlM_cons, hbody _ _ _ hstack, ih]

/-- **Renders in step.** Tokens with tags in pairs are rendered alike in related contexts. -/
theorem renderTokens_paired (hpairing : Pairing pair related) {ts ts' : List Token}
    (hts : List.Forall₂ (Token.Paired pair) ts ts') {stack stack' : Stack}
    (h : related stack stack') (depth : Nat) (out : String) :
    renderTokens depth stack out ts = renderTokens depth stack' out ts' := by
  induction hlength : ts.length using Nat.strongRecOn
    generalizing ts ts' stack stack' depth out with
  | ind n ih =>
  subst hlength
  cases hts with
  | nil => rw [renderTokens, renderTokens]
  | @cons token token' rest rest' htoken hrest =>
      have hafter (out : String) := ih _ (Nat.lt_succ_self _) hrest h depth out rfl
      cases htoken with
      | text s =>
          rw [renderTokens, renderTokens]
          exact hafter _
      | @tag tag tag' hpair =>
          have hsections := hpairing.sections tag tag' hpair rest rest' hrest
          rw [renderTokens, renderTokens]
          congr 1
          funext _
          cases htag : tag.opens? with
          | none =>
              rw [htag, Option.map_none, Option.map_eq_none_iff] at hsections
              rw [hsections, hpairing.shown tag tag' hpair _ _ h]
              exact hafter _
          | some name =>
              rw [htag, Option.map_some, Option.map_eq_some_iff] at hsections
              obtain ⟨name', htag', hclose⟩ := hsections
              rw [htag']
              dsimp only
              rw [hclose, lookahead_paired hrest]
              congr 1
              cases closeAt? name 0 rest with
              | none => exact hafter _
              | some i =>
                  have hbody (out : String) (context context' : Stack)
                      (hcontext : related context context') :=
                    congrArg (fun body => Metered.enter (depth + 1) fun _ => body)
                      (ih _ (length_take_lt i _ rest) (List.forall₂_take i hrest) hcontext
                        (depth + 1) out rfl)
                  have hbehind := ih _ (length_drop_lt (i + 1) _ rest)
                    (List.forall₂_drop (i + 1) hrest) h depth
                  dsimp only
                  rw [foldlM_related hbody (hpairing.contexts tag tag' hpair _ _ h)]
                  exact congrArg _ (funext fun out => hbehind out rfl)

/-! ### Tokens with other names -/

theorem paired_map_rename {ts : List Token}
    (h : ∀ tag, .tag tag ∈ ts → pair tag (tag.rename path name)) :
    List.Forall₂ (Token.Paired pair) ts (ts.map (.rename path name)) := by
  rw [List.forall₂_map_right_iff]
  refine List.forall₂_same.mpr fun token hmem => ?_
  cases token with
  | text s => exact .text s
  | tag tag => exact .tag (h tag hmem)

/-- Tokens with other names in their tags are rendered alike in related contexts, if no tag can be
told apart from its counterpart and sections of different names keep different names. -/
theorem renderTokens_rename {ts : List Token}
    (htags : ∀ tag, .tag tag ∈ ts → tag.InStep path name related)
    (hnames : ∀ tag tag' n n', .tag tag ∈ ts → .tag tag' ∈ ts → tag.section? = some n →
      tag'.section? = some n' → name n = name n' → n = n')
    {stack stack' : Stack} (h : related stack stack') (depth : Nat) (out : String) :
    renderTokens depth stack out ts =
      renderTokens depth stack' out (ts.map (.rename path name)) := by
  -- a tag and its counterpart form a pair where the tag is among the tokens
  have hpairing : Pairing (fun tag tag' => .tag tag ∈ ts ∧ tag' = tag.rename path name) related := by
    constructor
    · intro tag _ hpair
      obtain ⟨hmem, rfl⟩ := hpair
      exact (htags tag hmem).shown
    · intro tag _ hpair
      obtain ⟨hmem, rfl⟩ := hpair
      exact (htags tag hmem).contexts
    · intro tag _ hpair rest rest' hrest
      obtain ⟨hmem, rfl⟩ := hpair
      rw [opens?_rename, Option.map_map]
      refine Option.map_congr fun n hopens => closeAt?_paired ?_ ?_ hrest 0
      · intro other _ hother
        obtain ⟨hother, rfl⟩ := hother
        exact opens?_rename_eq_iff fun m hm hname =>
          hnames other tag m n hother hmem hm (section?_of_opens? hopens) hname
      · intro other _ hother
        obtain ⟨hother, rfl⟩ := hother
        exact rename_eq_sectionClose_iff fun m hm hname =>
          hnames other tag m n hother hmem hm (section?_of_opens? hopens) hname
  exact renderTokens_paired hpairing (paired_map_rename fun tag hmem => ⟨hmem, rfl⟩) h depth out

/-- Tokens are rendered alike in related contexts that none of their tags can tell apart. -/
theorem renderTokens_related {ts : List Token}
    (htags : ∀ tag, .tag tag ∈ ts → tag.InStep id id related) {stack stack' : Stack}
    (h : related stack stack') (depth : Nat) (out : String) :
    renderTokens depth stack out ts = renderTokens depth stack' out ts := by
  have hsame : ts.map (.rename id id) = ts :=
    (List.map_congr_left fun token _ => token.rename_id).trans (List.map_id ts)
  rw [renderTokens_rename htags (fun _ _ _ _ _ _ _ _ h => h) h, hsame]

end Vitae.Template
