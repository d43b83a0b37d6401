import Mathlib.Data.List.ReduceOption
import Vitae.Html.Fragment
import Vitae.Proofs.Phrases
import Vitae.Proofs.Unescape

/-!
# Reading fragments back

A fragment is a row of blocks, and what a block shows is an `Entry`: a heading if there is one, a
few lines, and the points of a list. `Entry.spell` is the grammar in which the texts of an entry are
put between tags, and `Fits` says what a text of that grammar may hold: no tag may begin in it.

The reader goes from left to right and never back, since at each place the next tag decides what
comes next (`behind?_spellPoints`, `behind?_spellLines`). It finds the only entries that spell a
fragment (`readRaw_eq_some_iff`). Escaped texts fit, and unescaping what was read gives the texts
that were written, so a work history and an education can be read back from their fragments
whatever their data holds: `fragments_read`.

What is read back is said from the data alone. `workEntry` and `educationEntry` look up the strings
and the lists of an object themselves, and `entry_workBlock` and `entry_educationBlock` say that the
blocks that are written show the same.
-/

namespace Vitae.Html

variable {α β : Type}

/-! ### The grammar -/

/-- What the blocks of a fragment look like. -/
structure Shape where
  /-- The tag with which a block begins. -/
  opening : String
  /-- Whether there may be a list in a block. -/
  listed : Bool

/-- The blocks of a work history. -/
def workShape : Shape := ⟨"<div class=\"resume-item work-item\">", true⟩

/-- The blocks of an education. -/
def educationShape : Shape := ⟨"<div class=\"resume-item education-item\">", false⟩

/-- What a block shows. -/
structure Entry (α : Type) where
  heading : Option α
  lines : List α
  points : List α
  deriving Repr, DecidableEq

namespace Entry

def map (f : α → β) (entry : Entry α) : Entry β :=
  ⟨entry.heading.map f, entry.lines.map f, entry.points.map f⟩

/-- All that an entry shows, from the top down. -/
def texts (entry : Entry α) : List α := entry.heading.toList ++ entry.lines ++ entry.points

theorem forall_mem_texts {p : α → Prop} {entry : Entry α} :
    (∀ text ∈ entry.texts, p text) ↔
      (∀ text ∈ entry.heading, p text) ∧ (∀ text ∈ entry.lines, p text) ∧
        ∀ text ∈ entry.points, p text := by
  simp [texts, or_imp, forall_and]

theorem texts_map (f : α → β) (entry : Entry α) : (entry.map f).texts = entry.texts.map f := by
  cases h : entry.heading <;> simp [texts, map, h]

theorem map_map {γ : Type} (g : β → γ) (f : α → β) (entry : Entry α) :
    (entry.map f).map g = entry.map (g ∘ f) := by
  simp [map]

theorem map_eq_self {f : α → α} (h : ∀ a, f a = a) (entry : Entry α) : entry.map f = entry := by
  obtain rfl : f = id := funext h
  simp [map]

end Entry

/-- The markup of a heading. -/
abbrev spellHeading : List Char → List Char := element "<div><strong>" "</strong></div>"

/-- The markup of a line. -/
abbrev spellLine : List Char → List Char := element "<div class=\"meta\">" "</div>"

/-- The markup of a point. -/
abbrev spellPoint : List Char → List Char := element "<li>" "</li>"

/-- The markup of a list of points. -/
def spellList (points : List (List Char)) : List Char :=
  element "<ul>" "</ul>" (points.flatMap spellPoint)

/-- The markup of some points: a list, if there are any. -/
def spellPoints (points : List (List Char)) : List Char :=
  if points = [] then [] else spellList points

/-- The markup of an entry whose texts are put between the tags as they are. -/
def Entry.spell (shape : Shape) (entry : Entry (List Char)) : List Char :=
  element shape.opening "</div>"
    (entry.heading.toList.flatMap spellHeading ++ entry.lines.flatMap spellLine ++
      spellPoints entry.points)

/-- Whether an entry has a block of this shape. -/
structure Entry.Fits (shape : Shape) (entry : Entry (List Char)) : Prop where
  length_lines : entry.lines.length ≤ 2
  listed : entry.points = [] ∨ shape.listed = true
  plain : ∀ text ∈ entry.texts, '<' ∉ text

/-- Whether a text is a fragment: the blocks of these entries, one after another. -/
def IsFragment (shape : Shape) (entries : List (Entry (List Char))) (s : List Char) : Prop :=
  (∀ entry ∈ entries, entry.Fits shape) ∧ s = entries.flatMap (Entry.spell shape)

/-! ### The reader -/

def readHeading : List Char → Option (List Char × List Char) :=
  readElement "<div><strong>" "</strong></div>"

def readLine : List Char → Option (List Char × List Char) :=
  readElement "<div class=\"meta\">" "</div>"

def readPoint : List Char → Option (List Char × List Char) := readElement "<li>" "</li>"

/-- Reads a list, which has to have points. -/
def readList (s : List Char) : Option (List (List Char) × List Char) := do
  let s ← behind? "<ul>" s
  let (points, s) := many readPoint s
  let s ← behind? "</ul>" s
  if points = [] then none else some (points, s)

/-- Reads a block. -/
def readBlock (shape : Shape) (s : List Char) : Option (Entry (List Char) × List Char) := do
  let s ← behind? shape.opening s
  let (heading, s) := optional readHeading s
  let (lines, s) := many readLine s
  let (points, s) := optional readList s
  let s ← behind? "</div>" s
  let entry : Entry (List Char) := ⟨heading, lines, points.getD []⟩
  if entry.lines.length ≤ 2 ∧ (entry.points = [] ∨ shape.listed) then some (entry, s) else none

/-- Reads a fragment to its end. -/
def readRaw (shape : Shape) (s : List Char) : Option (List (Entry (List Char))) :=
  let (entries, rest) := many (readBlock shape) s
  if rest = [] then some entries else none

/-- Reads a fragment and unescapes the texts in it. -/
def readFragment (shape : Shape) (s : List Char) : Option (List (Entry String)) :=
  (readRaw shape s).map (List.map (Entry.map fun text => String.ofList (unescape text)))

/-! ### What the next tag decides -/

/-- At a list, or behind the last line, nothing else can be read. -/
theorem behind?_spellPoints {piece : String} (hlist : Apart piece "<ul>")
    (hclose : Apart piece "</div>") (points : List (List Char)) (rest : List Char) :
    behind? piece (spellPoints points ++ ("</div>".toList ++ rest)) = none := by
  unfold spellPoints
  split
  · exact hclose.behind?_eq_none rest
  · simpa [spellList, element] using hlist.behind?_eq_none _

/-- At the lines, or where they would stand, nothing else can be read. -/
theorem behind?_spellLines {piece : String} (hline : Apart piece "<div class=\"meta\">")
    (hlist : Apart piece "<ul>") (hclose : Apart piece "</div>") (lines points : List (List Char))
    (rest : List Char) :
    behind? piece
        (lines.flatMap spellLine ++ (spellPoints points ++ ("</div>".toList ++ rest))) = none := by
  cases lines with
  | nil => exact behind?_spellPoints hlist hclose points rest
  | cons line lines => simpa [element] using hline.behind?_eq_none _

/-! ### What is read -/

theorem reads_readHeading : Reads readHeading ('<' ∉ ·) spellHeading :=
  reads_readElement _ (by decide)

theorem reads_readLine : Reads readLine ('<' ∉ ·) spellLine := reads_readElement _ (by decide)

theorem reads_readPoint : Reads readPoint ('<' ∉ ·) spellPoint := reads_readElement _ (by decide)

theorem spellPoint_ne_nil (point : List Char) : spellPoint point ≠ [] := by simp [element]

theorem spellLine_ne_nil (line : List Char) : spellLine line ≠ [] := by simp [element]

theorem spell_ne_nil (shape : Shape) (entry : Entry (List Char)) : entry.spell shape ≠ [] := by
  simp [Entry.spell, element]

theorem reads_readList :
    Reads readList (fun points => points ≠ [] ∧ ∀ point ∈ points, '<' ∉ point) spellList := by
  intro s points rest
  simp only [readList, Option.bind_eq_bind, Option.bind_eq_some_iff, behind?_eq_some_iff]
  constructor
  · intro h
    obtain ⟨inner, rfl, behind, hbehind, h⟩ := h
    obtain ⟨hplain, hinner, -⟩ := (many_eq_iff reads_readPoint spellPoint_ne_nil).mp
      (Prod.eta (many readPoint inner)).symm
    split at h
    · cases h
    · rename_i hne
      obtain ⟨rfl, rfl⟩ := Prod.mk.inj (Option.some.inj h)
      refine ⟨⟨hne, hplain⟩, ?_⟩
      rw [hbehind] at hinner
      rw [spellList, element, List.append_assoc, List.append_assoc, ← hinner]
  · intro h
    obtain ⟨⟨hne, hplain⟩, rfl⟩ := h
    have hclose : readPoint ("</ul>".toList ++ rest) = none :=
      readElement_eq_none (Apart.behind?_eq_none (by decide) rest) _
    have hrow := (many_eq_iff reads_readPoint spellPoint_ne_nil).mpr ⟨hplain, rfl, hclose⟩
    refine ⟨points.flatMap spellPoint ++ ("</ul>".toList ++ rest), ?_, rest, ?_, ?_⟩
    · simp only [spellList, element, List.append_assoc]
    · rw [hrow]
    · rw [hrow, if_neg hne]

/-- What is read in the place of a list are points; none where no list stands. -/
theorem spellPoints_of_optional {s rest : List Char} {list : Option (List (List Char))}
    (h : optional readList s = (list, rest)) :
    (∀ point ∈ list.getD [], '<' ∉ point) ∧ s = spellPoints (list.getD []) ++ rest := by
  obtain ⟨hpoints, rfl, -⟩ := (optional_eq_iff reads_readList).mp h
  cases list with
  | none => simp [spellPoints]
  | some points =>
      obtain ⟨hne, hplain⟩ := hpoints points rfl
      exact ⟨hplain, by simp [spellPoints, hne]⟩

/-- Points are read as they are spelled where the block ends behind them. -/
theorem exists_optional_spellPoints {points : List (List Char)}
    (hplain : ∀ point ∈ points, '<' ∉ point) (rest : List Char) :
    ∃ list : Option (List (List Char)), list.getD [] = points ∧
      optional readList (spellPoints points ++ ("</div>".toList ++ rest)) =
        (list, "</div>".toList ++ rest) := by
  by_cases hnil : points = []
  · subst hnil
    have hclose : behind? "<ul>" ("</div>".toList ++ rest) = none :=
      Apart.behind?_eq_none (by decide) rest
    exact ⟨none, rfl, (optional_eq_iff reads_readList).mpr
      ⟨by simp, rfl, fun _ => by simp only [readList, hclose]; rfl⟩⟩
  · exact ⟨some points, rfl, (optional_eq_iff reads_readList).mpr
      ⟨by simpa using ⟨hnil, hplain⟩, by simp [spellPoints, hnil], by simp⟩⟩

theorem reads_readBlock (shape : Shape) :
    Reads (readBlock shape) (Entry.Fits shape) (Entry.spell shape) := by
  intro s entry rest
  simp only [readBlock, Option.bind_eq_bind, Option.bind_eq_some_iff, behind?_eq_some_iff]
  constructor
  · intro h
    obtain ⟨inner, rfl, left, hleft, h⟩ := h
    -- Each part leaves the text in which the next one is read.
    cases hheading : optional readHeading inner with
    | mk heading afterHeading =>
    cases hlines : many readLine afterHeading with
    | mk lines afterLines =>
    cases hlist : optional readList afterLines with
    | mk list afterList =>
    simp only [hheading, hlines, hlist] at hleft h
    obtain ⟨⟨hlength, hlisted⟩, hentry⟩ := Option.ite_none_right_eq_some.mp h
    obtain ⟨rfl, rfl⟩ := Prod.mk.inj (Option.some.inj hentry)
    obtain ⟨plainHeading, rfl, -⟩ := (optional_eq_iff reads_readHeading).mp hheading
    obtain ⟨plainLines, rfl, -⟩ := (many_eq_iff reads_readLine spellLine_ne_nil).mp hlines
    obtain ⟨plainPoints, rfl⟩ := spellPoints_of_optional hlist
    refine ⟨⟨hlength, hlisted,
      Entry.forall_mem_texts.mpr ⟨plainHeading, plainLines, plainPoints⟩⟩, ?_⟩
    rw [hleft]
    simp only [Entry.spell, element, List.append_assoc]
  · intro h
    obtain ⟨⟨hlength, hlisted, hplain⟩, rfl⟩ := h
    obtain ⟨plainHeading, plainLines, plainPoints⟩ := Entry.forall_mem_texts.mp hplain
    -- Each part ends where the next tag is not its own.
    obtain ⟨list, hpoints, hlist⟩ := exists_optional_spellPoints plainPoints rest
    have hlines := (many_eq_iff reads_readLine spellLine_ne_nil).mpr ⟨plainLines, rfl,
      readElement_eq_none
        (behind?_spellPoints (by decide) (by decide) entry.points rest) _⟩
    have hheading := (optional_eq_iff reads_readHeading).mpr ⟨plainHeading, rfl, fun _ =>
      readElement_eq_none
        (behind?_spellLines (by decide) (by decide) (by decide) entry.lines entry.points rest) _⟩
    have hspell : entry.spell shape ++ rest = shape.opening.toList ++
        (entry.heading.toList.flatMap spellHeading ++ (entry.lines.flatMap spellLine ++
          (spellPoints entry.points ++ ("</div>".toList ++ rest)))) := by
      simp only [Entry.spell, element, List.append_assoc]
    refine ⟨_, hspell, rest, ?_, ?_⟩
    · rw [hheading, hlines, hlist]
    · rw [hheading, hlines, hlist]
      simp only [hpoints]
      exact if_pos ⟨hlength, hlisted⟩

theorem readRaw_eq_some_iff {shape : Shape} {s : List Char} {entries : List (Entry (List Char))} :
    readRaw shape s = some entries ↔ IsFragment shape entries s := by
  have hempty : readBlock shape [] = none := by
    refine Option.eq_none_iff_forall_ne_some.mpr fun found hfound => ?_
    obtain ⟨-, hnil⟩ := (reads_readBlock shape ..).mp hfound
    exact spell_ne_nil shape found.1 (List.append_eq_nil_iff.mp hnil.symm).1
  unfold readRaw IsFragment
  constructor
  · intro h
    cases hrow : many (readBlock shape) s with
    | mk row rest =>
    simp only [hrow] at h
    obtain ⟨rfl, hentries⟩ := Option.ite_none_right_eq_some.mp h
    obtain rfl := Option.some.inj hentries
    obtain ⟨hfits, hs, -⟩ := (many_eq_iff (reads_readBlock shape) (spell_ne_nil shape)).mp hrow
    exact ⟨hfits, hs.trans (List.append_nil _)⟩
  · intro h
    obtain ⟨hfits, hs⟩ := h
    have hrow := (many_eq_iff (reads_readBlock shape) (spell_ne_nil shape)).mpr
      ⟨hfits, hs.trans (List.append_nil _).symm, hempty⟩
    simp [hrow]

/-- No text is a fragment of different entries. -/
theorem IsFragment.unique {shape : Shape} {s : List Char} {first second : List (Entry (List Char))}
    (hfirst : IsFragment shape first s) (hsecond : IsFragment shape second s) : first = second :=
  Option.some.inj ((readRaw_eq_some_iff.mpr hfirst).symm.trans (readRaw_eq_some_iff.mpr hsecond))

/-! ### What the entries show -/

/-- A text, unless it is empty. -/
def text? (s : String) : Option String := if s = "" then none else some s

/-- Two texts in one: with the separator between them if both are there, or else the one that is. -/
def joined? (separator first second : String) : Option String :=
  match text? first, text? second with
  | some first, some second => some (first ++ separator ++ second)
  | some first, none => some first
  | none, second => second

/-- The string under a name, without the blanks around it; empty where no string stands. -/
def stringAt (fields : Json.Fields) (name : String) : String :=
  match fields.get? name with
  | some (.str s) => Text.trimmed s
  | _ => ""

/-- What a value says as a point: a string, the text of a number, or the word for a truth value. -/
def pointText? : Json → Option String
  | .str s => some s
  | .num n => some n.text
  | .bool b => some (if b then "true" else "false")
  | .null | .arr _ | .obj _ => none

/-- What the values of the list under a name say, without the blanks around it and without those
that say nothing; no texts where no list stands. -/
def pointsAt (fields : Json.Fields) (name : String) : List String :=
  match fields.get? name with
  | some (.arr items) => ((items.filterMap pointText?).map Text.trimmed).filter (· ≠ "")
  | _ => []

/-- What a work history shows of an entry. -/
def workEntry (fields : Json.Fields) : Entry String where
  heading := joined? " - " (stringAt fields "roleTitle") (stringAt fields "companyTitle")
  lines :=
    [joined? " – " (stringAt fields "startDate") (stringAt fields "endDate"),
      joined? " | " (stringAt fields "location") (stringAt fields "employmentType")].reduceOption
  points := pointsAt fields "bullets"

/-- The line of an education that names courses, if there are any. -/
def courses? : List String → Option String
  | [] => none
  | course :: more => some ("Coursework: " ++ ", ".intercalate (course :: more))

/-- What an education shows of an entry. -/
def educationEntry (fields : Json.Fields) : Entry String where
  heading :=
    joined? " | " (stringAt fields "institution")
      ((joined? " - " (stringAt fields "degree") (stringAt fields "field")).getD "")
  lines := [text? (stringAt fields "date"), courses? (pointsAt fields "coursework")].reduceOption
  points := []

/-- The objects among some values, in their order. -/
def records : List Json → List Json.Fields
  | [] => []
  | .obj fields :: items => fields :: records items
  | _ :: items => records items

/-- What a work history shows: an entry for each of its objects. -/
def workEntries (items : List Json) : List (Entry String) := (records items).map workEntry

/-- What an education shows: an entry for each of its objects. -/
def educationEntries (items : List Json) : List (Entry String) :=
  (records items).map educationEntry

theorem text?_ne_empty {s t : String} (h : text? s = some t) : t ≠ "" := by
  obtain ⟨hne, heq⟩ := Option.ite_none_left_eq_some.mp h
  exact Option.some.inj heq ▸ hne

/-- What is joined is not empty, since neither of its parts is. -/
theorem joined?_ne_empty {separator first second s : String}
    (h : joined? separator first second = some s) : s ≠ "" := by
  intro hs
  subst hs
  unfold joined? text? at h
  by_cases hfirst : first = "" <;> by_cases hsecond : second = "" <;> simp_all

theorem courses?_ne_empty {courses : List String} {s : String} (h : courses? courses = some s) :
    s ≠ "" := by
  cases courses with
  | nil => cases h
  | cons course more =>
      obtain rfl := Option.some.inj h
      simp

/-- Whether an entry shows no empty texts, and no blanks around its points. -/
structure Entry.Tidy (entry : Entry String) : Prop where
  ne_empty : ∀ text ∈ entry.texts, text ≠ ""
  trimmed : ∀ point ∈ entry.points, Text.trimmed point = point

theorem mem_pointsAt {fields : Json.Fields} {name point : String}
    (h : point ∈ pointsAt fields name) : Text.trimmed point = point ∧ point ≠ "" := by
  unfold pointsAt at h
  split at h
  · exact ⟨Text.trimmed_of_mem_present h, Text.ne_empty_of_mem_present h⟩
  · cases h

theorem Entry.tidy_mk {heading first second : Option String} {points : List String}
    (hheading : ∀ s, heading = some s → s ≠ "") (hfirst : ∀ s, first = some s → s ≠ "")
    (hsecond : ∀ s, second = some s → s ≠ "")
    (hpoints : ∀ point ∈ points, Text.trimmed point = point ∧ point ≠ "") :
    Entry.Tidy ⟨heading, [first, second].reduceOption, points⟩ := by
  refine ⟨Entry.forall_mem_texts.mpr ⟨hheading, ?_, fun point h => (hpoints point h).2⟩,
    fun point h => (hpoints point h).1⟩
  intro line hline
  rcases List.mem_pair.mp (List.reduceOption_mem_iff.mp hline) with h | h
  · exact hfirst line h.symm
  · exact hsecond line h.symm

theorem tidy_workEntry (fields : Json.Fields) : (workEntry fields).Tidy :=
  Entry.tidy_mk (fun _ => joined?_ne_empty) (fun _ => joined?_ne_empty)
    (fun _ => joined?_ne_empty) fun _ => mem_pointsAt

theorem tidy_educationEntry (fields : Json.Fields) : (educationEntry fields).Tidy :=
  Entry.tidy_mk (fun _ => joined?_ne_empty) (fun _ => text?_ne_empty)
    (fun _ => courses?_ne_empty) (by simp)

/-! ### What is written -/

/-- The texts of an entry as they stand in a fragment. -/
def Entry.escaped (entry : Entry String) : Entry (List Char) :=
  entry.map fun text => (escape text).toList

/-- What a block shows. -/
def Block.entry (block : Block) : Entry String :=
  ⟨text? block.heading, (block.lines.map text?).reduceOption, block.points⟩

theorem text?_of_ne {s : String} (h : s ≠ "") : text? s = some s := if_neg h

theorem joinPresent_pair (separator first second : String) :
    Text.joinPresent separator [first, second] = (joined? separator first second).getD "" := by
  unfold joined? text? Text.joinPresent
  by_cases hfirst : first = "" <;> by_cases hsecond : second = "" <;>
    simp [hfirst, hsecond, String.intercalate_cons_cons]

@[simp] theorem text?_joinPresent (separator first second : String) :
    text? (Text.joinPresent separator [first, second]) = joined? separator first second := by
  rw [joinPresent_pair]
  cases h : joined? separator first second with
  | none => rfl
  | some s => exact text?_of_ne (joined?_ne_empty h)

@[simp] theorem text?_courseLine (courses : List String) :
    text? (courseLine courses) = courses? courses := by
  cases courses with
  | nil => rfl
  | cons course more => exact text?_of_ne (by simp [courseLine])

theorem fieldText_eq (fields : Json.Fields) (name : String) :
    fieldText fields name = stringAt fields name := by
  unfold fieldText stringAt
  cases fields.get? name with
  | none => exact Text.trimmed_empty
  | some value =>
      cases value with
      | str s => rfl
      | _ => exact Text.trimmed_empty

theorem scalarText?_eq (value : Json) : scalarText? value = pointText? value := by
  cases value with
  | bool b => cases b <;> rfl
  | _ => rfl

theorem fieldTexts_eq (fields : Json.Fields) (name : String) :
    fieldTexts fields name = pointsAt fields name := by
  unfold fieldTexts pointsAt listTexts
  rw [funext scalarText?_eq]
  cases fields.get? name with
  | none => rfl
  | some value =>
      cases value with
      | arr items => rfl
      | _ => rfl

theorem filterMap_fields? (items : List Json) : items.filterMap Json.fields? = records items := by
  induction items with
  | nil => rfl
  | cons item items ih =>
      cases item with
      | obj fields => exact congrArg (fields :: ·) ih
      | _ => exact ih

theorem entry_workBlock (fields : Json.Fields) : (workBlock fields).entry = workEntry fields := by
  simp [Block.entry, workBlock, workEntry, fieldText_eq, fieldTexts_eq]

theorem entry_educationBlock (fields : Json.Fields) :
    (educationBlock fields).entry = educationEntry fields := by
  simp [Block.entry, educationBlock, educationEntry, joinPresent_pair " - ", fieldText_eq,
    fieldTexts_eq]

theorem toList_between (opening closing text : String) :
    (between opening closing text).toList =
      ((text? text).map fun text => (escape text).toList).toList.flatMap
        (element opening closing) := by
  unfold between text?
  split <;> simp [element]

theorem toList_join_between (opening closing : String) (lines : List String) :
    (String.join (lines.map (between opening closing))).toList =
      ((lines.map text?).reduceOption.map fun text => (escape text).toList).flatMap
        (element opening closing) := by
  induction lines with
  | nil => rfl
  | cons line lines ih =>
      rw [List.map_cons, String.join_cons, String.toList_append, ih, toList_between, List.map_cons]
      cases text? line <;> simp

theorem toList_pointList (points : List String) :
    (pointList points).toList = spellPoints (points.map fun text => (escape text).toList) := by
  cases points with
  | nil => rfl
  | cons point points => simp [pointList, spellPoints, spellList, element, List.flatMap_map]

/-- Whether a block has this shape. -/
structure Block.Has (shape : Shape) (block : Block) : Prop where
  opening : "<div class=\"resume-item " ++ block.kind ++ "\">" = shape.opening
  length_lines : block.lines.length ≤ 2
  listed : block.points = [] ∨ shape.listed = true

theorem Block.Has.toList_html {shape : Shape} {block : Block} (h : block.Has shape) :
    block.html.toList = block.entry.escaped.spell shape := by
  unfold Block.html
  rw [h.opening]
  simp only [String.toList_append, toList_between, toList_join_between, toList_pointList,
    Entry.spell, element, Entry.escaped, Entry.map, Block.entry, List.append_assoc]

theorem Block.Has.fits {shape : Shape} {block : Block} (h : block.Has shape) :
    block.entry.escaped.Fits shape := by
  refine ⟨?_, ?_, ?_⟩
  · have hshorter := List.reduceOption_length_le (block.lines.map text?)
    have hlength := h.length_lines
    simp only [Entry.escaped, Entry.map, Block.entry, List.length_map] at hshorter ⊢
    omega
  · simpa [Entry.escaped, Entry.map, Block.entry] using h.listed
  · intro text htext
    rw [Entry.escaped, Entry.texts_map] at htext
    obtain ⟨written, -, rfl⟩ := List.mem_map.mp htext
    exact lt_not_mem_escape written

/-- The blocks of a list of entries are a fragment. -/
theorem isFragment_blocksHtml {shape : Shape} {block : Json.Fields → Block}
    (h : ∀ fields, (block fields).Has shape) (items : List Json) :
    IsFragment shape ((records items).map fun fields => (block fields).entry.escaped)
      (blocksHtml block items).toList := by
  rw [blocksHtml, filterMap_fields?]
  constructor
  · intro entry hentry
    obtain ⟨fields, -, rfl⟩ := List.mem_map.mp hentry
    exact (h fields).fits
  · induction records items with
    | nil => rfl
    | cons fields rest ih =>
        rw [List.map_cons, String.join_cons, String.toList_append, ih, (h fields).toList_html]
        rfl

/-- Unescaping gives the texts that were escaped. -/
theorem readFragment_of_isFragment {shape : Shape} {s : List Char} {entries : List (Entry String)}
    (h : IsFragment shape (entries.map Entry.escaped) s) :
    readFragment shape s = some entries := by
  have hread : ∀ entry : Entry String,
      entry.escaped.map (fun text => String.ofList (unescape text)) = entry := by
    intro entry
    rw [Entry.escaped, Entry.map_map]
    refine Entry.map_eq_self (fun text => ?_) entry
    rw [Function.comp_apply, unescape_escape, String.ofList_toList]
  rw [readFragment, readRaw_eq_some_iff.mpr h, Option.map_some, List.map_map]
  simp [Function.comp_def, hread]

theorem isFragment_workHtml (items : List Json) :
    IsFragment workShape ((workEntries items).map Entry.escaped) (workHtml items).toList := by
  have h := @isFragment_blocksHtml workShape workBlock
    (fun _ => ⟨rfl, Nat.le_refl 2, .inr rfl⟩) items
  simpa [workHtml, workEntries, entry_workBlock, Function.comp_def] using h

theorem isFragment_educationHtml (items : List Json) :
    IsFragment educationShape ((educationEntries items).map Entry.escaped)
      (educationHtml items).toList := by
  have h := @isFragment_blocksHtml educationShape educationBlock
    (fun _ => ⟨rfl, Nat.le_refl 2, .inl rfl⟩) items
  simpa [educationHtml, educationEntries, entry_educationBlock, Function.comp_def] using h

/-- **Fragments can be read back.** The fragment of a work history is the blocks of the entries of
its objects, in their order, with the texts escaped. No other entries with texts in which no tag
begins have that fragment, and the reader gives the entries with their texts as they were. It is the
same with an education. The entries show no empty texts, and points without blanks around them. The
reader finds the entries of every fragment, and none in a text that is no fragment. -/
theorem fragments_read :
    (∀ items : List Json,
      (workHtml items).toList =
          ((workEntries items).map Entry.escaped).flatMap (Entry.spell workShape) ∧
        (∀ found, IsFragment workShape found (workHtml items).toList ↔
          found = (workEntries items).map Entry.escaped) ∧
        readFragment workShape (workHtml items).toList = some (workEntries items)) ∧
      (∀ items : List Json,
        (educationHtml items).toList =
            ((educationEntries items).map Entry.escaped).flatMap (Entry.spell educationShape) ∧
          (∀ found, IsFragment educationShape found (educationHtml items).toList ↔
            found = (educationEntries items).map Entry.escaped) ∧
          readFragment educationShape (educationHtml items).toList =
            some (educationEntries items)) ∧
      (∀ fields, (workEntry fields).Tidy ∧ (educationEntry fields).Tidy) ∧
      ∀ shape s entries, readRaw shape s = some entries ↔ IsFragment shape entries s := by
  refine ⟨fun items => ?_, fun items => ?_,
    fun fields => ⟨tidy_workEntry fields, tidy_educationEntry fields⟩,
    fun shape s entries => readRaw_eq_some_iff⟩
  · have h := isFragment_workHtml items
    exact ⟨h.2, fun found => ⟨fun hfound => hfound.unique h, fun hfound => hfound ▸ h⟩,
      readFragment_of_isFragment h⟩
  · have h := isFragment_educationHtml items
    exact ⟨h.2, fun found => ⟨fun hfound => hfound.unique h, fun hfound => hfound ▸ h⟩,
      readFragment_of_isFragment h⟩

/-- A position with everything there is to show, among values that are no objects and before an
object with nothing to show, and a course of study without its degree: there are blanks at the ends
of texts, texts that look like tags or like escaped text, and points that are no strings. -/
theorem fragments_read_mill :
    let position : Json.Fields :=
      [("bullets", .arr [.str " </ul>&lt;\n", .num (.int 3), .bool false, .str "\t", .null]),
        ("companyTitle", .str " Mill & Co "), ("employmentType", .str "part-time"),
        ("endDate", .str "2021 "), ("location", .str "\"Ash\""), ("roleTitle", .str "Miller"),
        ("startDate", .str " 2019")]
    let course : Json.Fields :=
      [("coursework", .arr [.str "Grain ", .obj [], .num (.int 2)]), ("date", .str "2018"),
        ("degree", .str "  "), ("field", .str "Milling"), ("institution", .str "<Ash>")]
    let work : List Json := [.null, .obj position, .arr [.obj position], .obj []]
    let education : List Json := [.str "Ash", .obj course]
    workHtml work =
        "<div class=\"resume-item work-item\">" ++
          "<div><strong>Miller - Mill &amp; Co</strong></div>" ++
          "<div class=\"meta\">2019 – 2021</div>" ++
          "<div class=\"meta\">&quot;Ash&quot; | part-time</div>" ++
          "<ul><li>&lt;/ul&gt;&amp;lt;</li><li>3</li><li>false</li></ul></div>" ++
          "<div class=\"resume-item work-item\"></div>" ∧
      readFragment workShape (workHtml work).toList =
        some [⟨some "Miller - Mill & Co", ["2019 – 2021", "\"Ash\" | part-time"],
          ["</ul>&lt;", "3", "false"]⟩, ⟨none, [], []⟩] ∧
      educationHtml education =
        "<div class=\"resume-item education-item\">" ++
          "<div><strong>&lt;Ash&gt; | Milling</strong></div>" ++
          "<div class=\"meta\">2018</div>" ++
          "<div class=\"meta\">Coursework: Grain, 2</div></div>" ∧
      readFragment educationShape (educationHtml education).toList =
        some [⟨some "<Ash> | Milling", ["2018", "Coursework: Grain, 2"], []⟩] := by
  intro position course work education
  obtain ⟨hwork, heducation, -⟩ := fragments_read
  obtain ⟨-, -, hreadWork⟩ := hwork work
  obtain ⟨-, -, hreadEducation⟩ := heducation education
  refine ⟨by decide +kernel, hreadWork.trans ?_, by decide +kernel, hreadEducation.trans ?_⟩
  · decide +kernel
  · decide +kernel

end Vitae.Html
