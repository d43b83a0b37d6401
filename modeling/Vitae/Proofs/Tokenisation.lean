import Vitae.Proofs.Cut
import Vitae.Template.Position

/-!
# Scanning divides a template

Scanning a template tag by tag divides it into tags and literal texts. `Division` is such a division
as it is written: which texts stand before the tags, which stand between their braces, and what
follows the last tag. A template can be divided in many ways, since braces may stand close together:
in `{{{x}}` the tag could begin at the first brace or at the second. `Division.Canonical` says which
division is meant, in terms of first occurrences and without a scan: every tag begins at the first
pair of opening braces there is and ends at the first pair of closing ones behind it, and no tag is
left in the text at the end.

`allTags_division` says that there is exactly one canonical division, and that the tags found by
scanning are those of this division.
-/

namespace Vitae.Template

/-! ### Scanning tag by tag -/

/-- `Scans template origin tags`: the tags found from the offset `origin` on, each of them sought
from the end of the one before it, until none is found. -/
inductive Scans (template : List Char) : Nat → List PlacedTag → Prop where
  | done {origin : Nat} (h : tagFrom? template origin = none) : Scans template origin []
  | tag {origin : Nat} {placed : PlacedTag} {rest : List PlacedTag}
      (h : tagFrom? template origin = some placed) (hrest : Scans template placed.stop rest) :
      Scans template origin (placed :: rest)

theorem Scans.unique {template : List Char} {origin : Nat} {tags tags' : List PlacedTag}
    (h : Scans template origin tags) (h' : Scans template origin tags') : tags = tags' := by
  induction h generalizing tags' with
  | done hnone =>
      cases h' with
      | done => rfl
      | tag hsome => simp [hnone] at hsome
  | tag hsome _ ih =>
      cases h' with
      | done hnone => simp [hsome] at hnone
      | tag hsome' hrest' =>
          obtain rfl := Option.some.inj (hsome.symm.trans hsome')
          rw [ih hrest']

/-- A tag is sought in what follows an offset. -/
theorem tagFrom?_append (front t : List Char) :
    tagFrom? (front ++ t) (Text.byteCount front) =
      (cut t).map (·.placed (Text.byteCount front)) := by
  rw [tagFrom?, Text.dropBytes?_append]

theorem Cut.stop_placed (c : Cut) (origin : Nat) :
    (c.placed origin).stop = origin + Text.byteCount c.whole := by
  have hbraces : Text.byteCount ['}', '}'] = 2 := rfl
  have hbrace : '{'.utf8Size = 1 := rfl
  simp only [Cut.placed, Cut.whole, Text.byteCount_append, Text.byteCount_cons, hbraces, hbrace]
  omega

/-- The tags behind an offset are found by scanning from there. -/
theorem scans_tagsFrom (front t : List Char) :
    Scans (front ++ t) (Text.byteCount front) (tagsFrom (Text.byteCount front) t) := by
  induction ht : t.length using Nat.strongRecOn generalizing front t with
  | ind n ih =>
  subst ht
  have hfirst := tagFrom?_append front t
  cases h : cut t with
  | none =>
      rw [h] at hfirst
      rw [tagsFrom_of_none h]
      exact .done hfirst
  | some c =>
      rw [h] at hfirst
      rw [tagsFrom_of_cut h]
      refine .tag hfirst ?_
      have hrest := ih _ (length_after_lt h) (front ++ c.whole) c.after rfl
      rw [List.append_assoc, ← eq_whole_append h, Text.byteCount_append] at hrest
      rwa [Cut.stop_placed]

/-- Whether some tags stand one after another between two offsets, each with four braces at
least. -/
def InOrder (first : Nat) : List PlacedTag → Nat → Prop
  | [], last => first ≤ last
  | placed :: rest, last =>
    first ≤ placed.start ∧ placed.start + 4 ≤ placed.stop ∧ InOrder placed.stop rest last

theorem inOrder_tagsFrom (origin : Nat) (t : List Char) :
    InOrder origin (tagsFrom origin t) (origin + Text.byteCount t) := by
  induction ht : t.length using Nat.strongRecOn generalizing origin t with
  | ind n ih =>
  subst ht
  cases h : cut t with
  | none =>
      rw [tagsFrom_of_none h]
      exact Nat.le_add_right ..
  | some c =>
      have hrest := ih _ (length_after_lt h) (c.placed origin).stop c.after rfl
      have hend : (c.placed origin).stop + Text.byteCount c.after = origin + Text.byteCount t := by
        conv => rhs; rw [eq_whole_append h, Text.byteCount_append, ← Nat.add_assoc]
        rw [Cut.stop_placed]
      rw [hend] at hrest
      rw [tagsFrom_of_cut h]
      refine ⟨Nat.le_add_right .., ?_, hrest⟩
      simp only [Cut.placed]
      omega

/-! ### Divisions -/

/-- A tag with the literal text before it, as they are written. -/
structure Piece where
  literal : List Char
  /-- What stands between the braces. -/
  inner : List Char
  deriving Repr, DecidableEq

/-- The text that some pieces and the literal text behind them make up. -/
def join (tail : List Char) : List Piece → List Char
  | [] => tail
  | piece :: rest => piece.literal ++ '{' :: '{' :: (piece.inner ++ '}' :: '}' :: join tail rest)

/-- The tags of some pieces, with their places in a text in which the first piece begins at the
offset `origin`. What a tag is depends on its trimmed content alone. -/
def placedTags (origin : Nat) : List Piece → List PlacedTag
  | [] => []
  | piece :: rest =>
    let start := origin + Text.byteCount piece.literal
    let stop := start + Text.byteCount piece.inner + 4
    ⟨Tag.ofContent (Text.trim piece.inner), start, stop⟩ :: placedTags stop rest

/-- Whether `text` begins with `front` and a pair of `d` behind it, and with no shorter text and a
pair behind that. -/
def FirstPair (d : Char) (front text : List Char) : Prop :=
  front ++ [d, d] <+: text ∧
    ∀ front', front' ++ [d, d] <+: text → front.length ≤ front'.length

/-- Whether each of some pieces is a tag at the first pair of opening braces up to the first pair of
closing ones, and no tag is left behind them. -/
inductive Leftmost (tail : List Char) : List Piece → Prop where
  | done (h : ¬ HasTag tail) : Leftmost tail []
  | tag {piece : Piece} {rest : List Piece}
      (hopen : FirstPair '{' piece.literal (join tail (piece :: rest)))
      (hclose : FirstPair '}' piece.inner (piece.inner ++ '}' :: '}' :: join tail rest))
      (hrest : Leftmost tail rest) : Leftmost tail (piece :: rest)

/-- A template divided into tags and literal texts. -/
structure Division where
  pieces : List Piece
  /-- The literal text after the last tag. -/
  tail : List Char
  deriving Repr, DecidableEq

namespace Division

/-- The template that is divided. -/
def text (d : Division) : List Char := join d.tail d.pieces

/-- Its tags. -/
def tags (d : Division) : List PlacedTag := placedTags 0 d.pieces

/-- Whether its tags are at the first places where tags can be. -/
def Canonical (d : Division) : Prop := Leftmost d.tail d.pieces

end Division

theorem firstPair_iff {d : Char} {front rest : List Char} :
    FirstPair d front (front ++ d :: d :: rest) ↔ ¬ [d, d] <:+: front ++ [d] := by
  constructor
  · rintro ⟨-, hfirst⟩ ⟨front', after, hpair⟩
    have hle : front.length ≤ front'.length :=
      hfirst front' ⟨after ++ d :: rest, by rw [← List.append_assoc, hpair]; simp⟩
    have hlength := congrArg List.length hpair
    simp only [List.length_append, List.length_cons, List.length_nil] at hlength
    omega
  · intro hnone
    refine ⟨⟨rest, by simp⟩, ?_⟩
    intro front' hpair
    exact length_le_of_pair hnone (List.prefix_append front _) hpair

/-- The first tag of a text that is divided so is where the text is cut. -/
theorem Leftmost.cut_join {tail : List Char} {piece : Piece} {rest : List Piece}
    (h : Leftmost tail (piece :: rest)) :
    cut (join tail (piece :: rest)) = some ⟨piece.literal, piece.inner, join tail rest⟩ := by
  cases h with
  | tag hopen hclose _ =>
      exact cut_eq_some_iff.mpr
        ⟨by simp [join, Cut.whole], firstPair_iff.mp hopen, firstPair_iff.mp hclose⟩

/-- Cutting a text again and again divides it so. -/
theorem exists_leftmost (origin : Nat) (t : List Char) :
    ∃ pieces tail, join tail pieces = t ∧ Leftmost tail pieces ∧
      placedTags origin pieces = tagsFrom origin t := by
  induction ht : t.length using Nat.strongRecOn generalizing origin t with
  | ind n ih =>
  subst ht
  cases h : cut t with
  | none =>
      exact ⟨[], t, rfl, .done (cut_eq_none_iff.mp h), (tagsFrom_of_none h origin).symm⟩
  | some c =>
      obtain ⟨pieces, tail, hjoin, hleftmost, htags⟩ :=
        ih _ (length_after_lt h) (c.placed origin).stop c.after rfl
      obtain ⟨-, hopen, hclose⟩ := cut_eq_some_iff.mp h
      refine ⟨⟨c.before, c.inner⟩ :: pieces, tail, ?_, ?_, ?_⟩
      · rw [join, hjoin]
        exact (eq_of_cut h).symm
      · exact .tag (firstPair_iff.mpr hopen) (firstPair_iff.mpr hclose) hleftmost
      · rw [tagsFrom_of_cut h, ← htags]
        rfl

/-- A text is divided so in one way only. -/
theorem Leftmost.unique {tail tail' : List Char} {pieces pieces' : List Piece}
    (h : Leftmost tail pieces) (h' : Leftmost tail' pieces')
    (htext : join tail pieces = join tail' pieces') : pieces = pieces' ∧ tail = tail' := by
  induction pieces generalizing pieces' with
  | nil =>
      cases h with
      | done hnone =>
          have hcut := cut_eq_none_iff.mpr hnone
          cases pieces' with
          | nil => exact ⟨rfl, htext⟩
          | cons piece' rest' =>
              rw [show tail = join tail' (piece' :: rest') from htext, h'.cut_join] at hcut
              cases hcut
  | cons piece rest ih =>
      have hcut := h.cut_join
      rw [htext] at hcut
      cases pieces' with
      | nil =>
          cases h' with
          | done hnone => simp [join, cut_eq_none_iff.mpr hnone] at hcut
      | cons piece' rest' =>
          rw [h'.cut_join, Option.some.injEq, Cut.mk.injEq] at hcut
          obtain ⟨hliteral, hinner, hrest⟩ := hcut
          cases h with
          | tag _ _ hleftmost =>
              cases h' with
              | tag _ _ hleftmost' =>
                  obtain ⟨hpieces, htail⟩ := ih hleftmost hleftmost' hrest.symm
                  have hpiece : piece = piece' := by
                    cases piece
                    cases piece'
                    simp_all
                  exact ⟨by rw [hpiece, hpieces], htail⟩

/-- **Scanning is lossless and canonical.** Scanning a template tag by tag ends with a list of tags,
which stand one after another in the template. There is exactly one canonical division of the
template, and its tags are these. A scan from the offset of a character, or from the end, finds
nothing exactly when no complete tag stands in what follows. -/
theorem allTags_division (template : List Char) :
    (∀ tags, Scans template 0 tags ↔ tags = allTags template) ∧
      InOrder 0 (allTags template) (Text.byteCount template) ∧
      (∃ d : Division, d.tags = allTags template ∧
        ∀ d' : Division, d'.text = template ∧ d'.Canonical ↔ d' = d) ∧
      ∀ front rest : List Char,
        tagFrom? (front ++ rest) (Text.byteCount front) = none ↔ ¬ HasTag rest := by
  have hscans : Scans template 0 (allTags template) := scans_tagsFrom [] template
  have horder := inOrder_tagsFrom 0 template
  rw [Nat.zero_add] at horder
  refine ⟨?_, horder, ?_, ?_⟩
  · intro tags
    constructor
    · intro h
      exact h.unique hscans
    · intro htags
      exact htags ▸ hscans
  · obtain ⟨pieces, tail, hjoin, hleftmost, htags⟩ := exists_leftmost 0 template
    refine ⟨⟨pieces, tail⟩, htags, ?_⟩
    intro d'
    constructor
    · intro ⟨htext, hcanonical⟩
      obtain ⟨hpieces, htail⟩ := hcanonical.unique hleftmost (htext.trans hjoin.symm)
      cases d'
      simp_all
    · rintro rfl
      exact ⟨hjoin, hleftmost⟩
  · intro front rest
    rw [tagFrom?_append, Option.map_eq_none_iff, cut_eq_none_iff]

/-- Of three opening braces the first two begin the tag, and of three closing ones the first two end
it. -/
example : allTags "\x7b\x7b\x7bé\x7d\x7d\x7d".toList = [⟨.substitution "\x7bé", 0, 7⟩] := by
  decide +kernel

end Vitae.Template
