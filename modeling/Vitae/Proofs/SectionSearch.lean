import Mathlib.Order.Bounds.Basic
import Mathlib.Order.Nat
import Vitae.Proofs.Offsets
import Vitae.Proofs.Tokens

/-!
# Which tag ends a section, and what it costs to find it

The search for the end of a section keeps a count: how many sections of the same name stand open. It
stops at the tag that lowers the count to zero. Said without a count, this is the first tag up to
which more tags close the name than open it. `outnumbered` is the set of all numbers of tags of
which this can be said, so the section ends at its least member, and at none if it is empty.

The count that the search starts with is a parameter throughout (`nested`), since it is what changes
from one tag to the next: `ending_cons_of_opener`, `ending_cons_of_close` and `ending_cons_of_other`
say what each kind of tag does to it. From these three follow what the search finds
(`spanSearch_of_ending`, `spanSearch_of_empty`) and that tags which neither open nor close the name
might as well not be there (`ending_filter_iff`).

Every tag that is passed is one scan, so a search is a number of scans and then its result; what a
limit does to it is said by `Metered.run_scans`.
-/

namespace Vitae.Template

/-! ### Scans within a limit -/

/-- Scans go well as long as they are no more than what is left of the limit; otherwise the run ends
with the first scan too many, which is counted. -/
theorem Metered.run_scans {α : Type} (limits : Limits) (n : Nat) (a : α) (used : Nat) :
    (Metered.scans n (.done a)).run limits used =
      if n ≤ limits.maxTagScans - used then (.ok a, used + n)
      else (.error (.tagScans limits.maxTagScans), used + (limits.maxTagScans - used) + 1) := by
  induction n generalizing used with
  | zero => simp [scans, run]
  | succ n ih =>
      simp only [scans, run]
      by_cases hfull : limits.maxTagScans < used + 1
      · have hnone : limits.maxTagScans - used = 0 := by omega
        rw [if_pos hfull, hnone, if_neg (Nat.not_succ_le_zero n), Nat.add_zero]
      · have hleft : limits.maxTagScans - used = limits.maxTagScans - (used + 1) + 1 := by omega
        have hnext (m : Nat) : used + 1 + m = used + (m + 1) := by omega
        rw [if_neg hfull, ih, hnext, hnext, ← hleft]
        simp only [hleft, Nat.add_le_add_iff_right]

/-! ### The tag that ends a section -/

/-- How many of some tags begin a section called `name`, of either kind. -/
def openers (name : String) (tags : List PlacedTag) : Nat :=
  tags.countP (·.tag.opens? = some name)

/-- How many of some tags close a section called `name`. -/
def closes (name : String) (tags : List PlacedTag) : Nat :=
  tags.countP (·.tag = .sectionClose name)

/-- The numbers of tags up to which the close tags outnumber the opening tags of a name, when
`nested` sections of that name stand open before. -/
def outnumbered (name : String) (nested : Nat) (tags : List PlacedTag) : Set Nat :=
  {k | openers name (tags.take k) + nested < closes name (tags.take k)}

/-- Whether `last`, with `i` tags before it, is the first tag up to which the close tags outnumber
the opening ones. -/
structure Ending (name : String) (nested : Nat) (tags : List PlacedTag) (i : Nat)
    (last : PlacedTag) : Prop where
  least : IsLeast (outnumbered name nested tags) (i + 1)
  tag_eq : tags[i]? = some last

/-- Whether a tag opens or closes a section called `name`. -/
def PlacedTag.Concerns (name : String) (placed : PlacedTag) : Prop :=
  placed.tag.opens? = some name ∨ placed.tag = .sectionClose name

instance (name : String) : DecidablePred (PlacedTag.Concerns name) := fun placed =>
  inferInstanceAs (Decidable (placed.tag.opens? = some name ∨ placed.tag = .sectionClose name))

section

variable {name : String} {nested : Nat} {placed last : PlacedTag} {tags : List PlacedTag}
  {i k : Nat}

theorem mem_outnumbered_iff :
    k ∈ outnumbered name nested tags ↔
      openers name (tags.take k) + nested < closes name (tags.take k) := Iff.rfl

instance : DecidablePred (· ∈ outnumbered name nested tags) := fun k =>
  inferInstanceAs (Decidable (openers name (tags.take k) + nested < closes name (tags.take k)))

theorem not_mem_outnumbered_zero : 0 ∉ outnumbered name nested tags := by
  simp [mem_outnumbered_iff, closes]

/-- The least number of a set without zero is one more than that of the numbers less one. -/
theorem isLeast_succ_iff {s s' : Set Nat} (hzero : 0 ∉ s) (h : ∀ k, k + 1 ∈ s ↔ k ∈ s') :
    IsLeast s (k + 1) ↔ IsLeast s' k := by
  constructor
  · rintro ⟨hmem, hleast⟩
    refine ⟨(h k).mp hmem, ?_⟩
    intro j hj
    exact Nat.le_of_succ_le_succ (hleast ((h j).mpr hj))
  · rintro ⟨hmem, hleast⟩
    refine ⟨(h k).mpr hmem, ?_⟩
    intro j hj
    cases j with
    | zero => exact absurd hj hzero
    | succ j => exact Nat.succ_le_succ (hleast ((h j).mp hj))

/-- A tag that passes the search on: behind it, the section ends where it ends with another
count. -/
theorem ending_cons_of_pass {further : Nat}
    (h : ∀ k, k + 1 ∈ outnumbered name nested (placed :: tags) ↔
      k ∈ outnumbered name further tags) :
    Ending name nested (placed :: tags) i last ↔
      ∃ j, i = j + 1 ∧ Ending name further tags j last := by
  constructor
  · intro hending
    have hleast := (isLeast_succ_iff not_mem_outnumbered_zero h).mp hending.least
    cases i with
    | zero => exact absurd hleast.1 not_mem_outnumbered_zero
    | succ j => exact ⟨j, rfl, hleast, by simpa using hending.tag_eq⟩
  · rintro ⟨j, rfl, hleast, htag⟩
    exact ⟨(isLeast_succ_iff not_mem_outnumbered_zero h).mpr hleast, by simpa using htag⟩

theorem mem_outnumbered_of_opener (h : placed.tag.opens? = some name) (k : Nat) :
    k + 1 ∈ outnumbered name nested (placed :: tags) ↔ k ∈ outnumbered name (nested + 1) tags := by
  have hclose : placed.tag ≠ .sectionClose name := by
    intro hclose
    simp [hclose, Tag.opens?] at h
  simp only [mem_outnumbered_iff, openers, closes, List.take_succ_cons, List.countP_cons, h, hclose,
    decide_true, decide_false, Bool.false_eq_true, if_true, if_false]
  omega

theorem mem_outnumbered_of_close (h : placed.tag = .sectionClose name) (k : Nat) :
    k + 1 ∈ outnumbered name (nested + 1) (placed :: tags) ↔ k ∈ outnumbered name nested tags := by
  simp only [mem_outnumbered_iff, openers, closes, List.take_succ_cons, List.countP_cons, h,
    Tag.opens?, reduceCtorEq, decide_true, decide_false, Bool.false_eq_true, if_true, if_false]
  omega

theorem mem_outnumbered_of_other (h : ¬ placed.Concerns name) (k : Nat) :
    k + 1 ∈ outnumbered name nested (placed :: tags) ↔ k ∈ outnumbered name nested tags := by
  obtain ⟨hopen, hclose⟩ := not_or.mp h
  simp [mem_outnumbered_iff, openers, closes, hopen, hclose]

theorem ending_cons_of_opener (h : placed.tag.opens? = some name) :
    Ending name nested (placed :: tags) i last ↔
      ∃ j, i = j + 1 ∧ Ending name (nested + 1) tags j last :=
  ending_cons_of_pass (mem_outnumbered_of_opener h)

theorem ending_cons_of_other (h : ¬ placed.Concerns name) :
    Ending name nested (placed :: tags) i last ↔
      ∃ j, i = j + 1 ∧ Ending name nested tags j last :=
  ending_cons_of_pass (mem_outnumbered_of_other h)

/-- A close tag ends the section at once, unless a section stands open inside it. -/
theorem ending_cons_of_close (h : placed.tag = .sectionClose name) :
    Ending name nested (placed :: tags) i last ↔
      match nested with
      | 0 => i = 0 ∧ placed = last
      | nested + 1 => ∃ j, i = j + 1 ∧ Ending name nested tags j last := by
  cases nested with
  | succ nested => exact ending_cons_of_pass (mem_outnumbered_of_close h)
  | zero =>
      have hleast : IsLeast (outnumbered name 0 (placed :: tags)) 1 := by
        refine ⟨by simp [mem_outnumbered_iff, openers, closes, h, Tag.opens?], ?_⟩
        intro j hj
        refine Nat.one_le_iff_ne_zero.mpr ?_
        rintro rfl
        exact not_mem_outnumbered_zero hj
      constructor
      · intro hending
        obtain rfl : i = 0 := Nat.succ.inj (hending.least.unique hleast)
        exact ⟨rfl, by simpa using hending.tag_eq⟩
      · rintro ⟨rfl, rfl⟩
        exact ⟨hleast, rfl⟩

/-- Tags that neither open nor close the name have no say in where a section ends: it ends at the
same tag without them. -/
theorem ending_filter_iff {j : Nat} :
    Ending name nested (tags.filter (PlacedTag.Concerns name)) j last ↔
      ∃ i, Ending name nested tags i last ∧ (tags.take i).countP (PlacedTag.Concerns name) = j := by
  induction tags generalizing nested j with
  | nil =>
      refine iff_of_false ?_ ?_
      · intro hending
        simpa using hending.tag_eq
      · rintro ⟨i, hending, -⟩
        simpa using hending.tag_eq
  | cons placed rest ih =>
      by_cases hconcerns : placed.Concerns name
      · rw [List.filter_cons_of_pos (by simpa using hconcerns)]
        -- both lists begin with the tag, which passes both searches on or ends them both
        have pass {further : Nat}
            (hstep : ∀ (tags : List PlacedTag) (i : Nat),
              Ending name nested (placed :: tags) i last ↔
                ∃ j, i = j + 1 ∧ Ending name further tags j last) :
            Ending name nested (placed :: rest.filter (PlacedTag.Concerns name)) j last ↔
              ∃ i, Ending name nested (placed :: rest) i last ∧
                ((placed :: rest).take i).countP (PlacedTag.Concerns name) = j := by
          rw [hstep]
          constructor
          · rintro ⟨j, rfl, hkept⟩
            obtain ⟨i, hrest, rfl⟩ := ih.mp hkept
            exact ⟨i + 1, (hstep rest _).mpr ⟨i, rfl, hrest⟩, by simp [hconcerns]⟩
          · rintro ⟨i, hending, rfl⟩
            obtain ⟨i, rfl, hrest⟩ := (hstep rest _).mp hending
            exact ⟨_, by simp [hconcerns], ih.mpr ⟨i, hrest, rfl⟩⟩
        rcases hconcerns with hopen | hclose
        · exact pass fun _ _ => ending_cons_of_opener hopen
        · cases nested with
          | succ nested => exact pass fun _ _ => ending_cons_of_close hclose
          | zero =>
              rw [ending_cons_of_close hclose]
              simp only [ending_cons_of_close hclose]
              constructor
              · rintro ⟨rfl, rfl⟩
                exact ⟨0, ⟨rfl, rfl⟩, rfl⟩
              · rintro ⟨i, ⟨rfl, rfl⟩, rfl⟩
                exact ⟨rfl, rfl⟩
      · rw [List.filter_cons_of_neg (by simpa using hconcerns), ih]
        constructor
        · rintro ⟨i, hrest, rfl⟩
          exact ⟨i + 1, (ending_cons_of_other hconcerns).mpr ⟨i, rfl, hrest⟩, by simp [hconcerns]⟩
        · rintro ⟨i, hending, rfl⟩
          obtain ⟨i, rfl, hrest⟩ := (ending_cons_of_other hconcerns).mp hending
          exact ⟨i, hrest, by simp [hconcerns]⟩

/-- Where the close tags come to outnumber the opening ones there is a tag that ends the section. -/
theorem exists_ending (h : IsLeast (outnumbered name nested tags) k) :
    ∃ i last, k = i + 1 ∧ Ending name nested tags i last := by
  cases k with
  | zero => exact absurd h.1 not_mem_outnumbered_zero
  | succ i =>
      by_cases hlength : i < tags.length
      · exact ⟨i, tags[i], rfl, h, by simp [hlength]⟩
      · -- all tags are no more than `i` tags, so they would have been enough
        have htake : tags.take (i + 1) = tags.take i := by
          rw [List.take_of_length_le (by omega), List.take_of_length_le (by omega)]
        have hfewer : i ∈ outnumbered name nested tags := by
          rw [mem_outnumbered_iff, ← htake]
          exact h.1
        exact absurd (h.2 hfewer) (by omega)

end

/-! ### The search -/

/-- The search for the end of a section among the tags behind its opening tag, which ends at the
offset `origin`, when `nested` sections of the same name stand open inside it. -/
def spanSearch (name : String) (origin : Nat) :
    Nat → List PlacedTag → Metered (Option SectionSpan)
  | _, [] => .done none
  | nested, placed :: rest => .scan fun _ =>
    if placed.tag.opens? = some name then spanSearch name origin (nested + 1) rest
    else if placed.tag = .sectionClose name then
      match nested with
      | 0 => .done (some ⟨origin, placed.start, placed.stop⟩)
      | nested + 1 => spanSearch name origin nested rest
    else spanSearch name origin nested rest

section

variable {name : String} {origin nested i : Nat} {placed last : PlacedTag} {tags : List PlacedTag}

theorem spanSearch_cons :
    spanSearch name origin nested (placed :: tags) = .scan fun _ =>
      if placed.tag.opens? = some name then spanSearch name origin (nested + 1) tags
      else if placed.tag = .sectionClose name then
        match nested with
        | 0 => .done (some ⟨origin, placed.start, placed.stop⟩)
        | nested + 1 => spanSearch name origin nested tags
      else spanSearch name origin nested tags := by
  cases nested <;> rfl

/-- The search ends at the tag that ends the section, with one scan for each tag up to it. -/
theorem spanSearch_of_ending (h : Ending name nested tags i last) :
    spanSearch name origin nested tags =
      .scans (i + 1) (.done (some ⟨origin, last.start, last.stop⟩)) := by
  induction tags generalizing nested i with
  | nil => simpa using h.tag_eq
  | cons placed rest ih =>
      rw [spanSearch_cons, Metered.scans]
      congr 1
      funext _
      by_cases hopen : placed.tag.opens? = some name
      · obtain ⟨j, rfl, hrest⟩ := (ending_cons_of_opener hopen).mp h
        rw [if_pos hopen, ih hrest, Metered.scans]
      · rw [if_neg hopen]
        by_cases hclose : placed.tag = .sectionClose name
        · rw [if_pos hclose]
          have hcases := (ending_cons_of_close hclose).mp h
          cases nested with
          | zero =>
              obtain ⟨rfl, rfl⟩ := hcases
              rfl
          | succ nested =>
              obtain ⟨j, rfl, hrest⟩ := hcases
              exact ih hrest
        · obtain ⟨j, rfl, hrest⟩ := (ending_cons_of_other (not_or.mpr ⟨hopen, hclose⟩)).mp h
          rw [if_neg hclose, ih hrest, Metered.scans]

/-- The search comes to the last tag and finds nothing where the close tags never outnumber the
opening ones. -/
theorem spanSearch_of_empty (h : ∀ k, k ∉ outnumbered name nested tags) :
    spanSearch name origin nested tags = .scans tags.length (.done none) := by
  induction tags generalizing nested with
  | nil => rfl
  | cons placed rest ih =>
      rw [spanSearch_cons, List.length_cons, Metered.scans]
      congr 1
      funext _
      by_cases hopen : placed.tag.opens? = some name
      · rw [if_pos hopen, ih]
        intro k hk
        exact h (k + 1) ((mem_outnumbered_of_opener hopen k).mpr hk)
      · rw [if_neg hopen]
        by_cases hclose : placed.tag = .sectionClose name
        · rw [if_pos hclose]
          cases nested with
          | zero =>
              obtain ⟨hends, -⟩ := ((ending_cons_of_close hclose).mpr ⟨rfl, rfl⟩ :
                Ending name 0 (placed :: rest) 0 placed).least
              exact absurd hends (h 1)
          | succ nested =>
              refine ih ?_
              intro k hk
              exact h (k + 1) ((mem_outnumbered_of_close hclose k).mpr hk)
        · rw [if_neg hclose, ih]
          intro k hk
          exact h (k + 1) ((mem_outnumbered_of_other (not_or.mpr ⟨hopen, hclose⟩) k).mpr hk)

end

/-- The search in place goes from tag to tag like the search on the tags. Its count is one more than
the number of sections inside, for the section itself stands open. -/
theorem map_scanSection_of_scans {template : List Char} {name : String} {origin cursor : Nat}
    {tags : List PlacedTag} (h : Scans template cursor tags) (hcursor : origin ≤ cursor)
    (nested : Nat) :
    Option.map Span.toSectionSpan <$> scanSection template name (nested + 1) cursor hcursor =
      .safe (spanSearch name origin nested tags) := by
  induction h generalizing nested with
  | done hnone =>
      rw [scanSection_of_none hnone]
      rfl
  | @tag cursor placed rest hsome _ ih =>
      have hstop : origin < placed.stop := by
        have hscan : scanTag template cursor = .ok (some placed) := hsome ▸ scanTag_eq ..
        have hbounds := bounds_of_scanTag hscan
        omega
      have further (nested : Nat) := ih (Nat.le_of_lt hstop) nested
      rw [scanSection_of_some hsome hcursor hstop, Checked.map_scan, spanSearch_cons,
        Checked.safe_scan]
      congr 1
      funext _
      split
      · exact further (nested + 1)
      · split
        · cases nested with
          | zero => rfl
          | succ nested => exact further nested
        · exact further nested

theorem Metered.map_injective {α β : Type} {f : α → β} (hf : Function.Injective f) :
    Function.Injective fun x : Metered α => f <$> x := by
  intro x
  induction x with
  | done a =>
      intro y h
      cases y with
      | done b => exact congrArg done (hf (done.inj h))
      | scan next => cases h
      | enter depth next => cases h
  | scan next ih =>
      intro y h
      cases y with
      | done b => cases h
      | scan next' => exact congrArg scan (funext fun u => ih u (congrFun (scan.inj h) u))
      | enter depth next' => cases h
  | enter depth next ih =>
      intro y h
      cases y with
      | done b => cases h
      | scan next' => cases h
      | enter depth' next' =>
          obtain ⟨rfl, hnext⟩ := enter.inj h
          exact congrArg (enter depth) (funext fun u => ih u (congrFun hnext u))

theorem Checked.safe_injective {α : Type} : Function.Injective (Checked.safe (α := α)) := by
  intro x y h
  have hrun : (Except.ok <$> x : Metered (Except Fault α)) = Except.ok <$> y := by
    simpa [Checked.safe] using congrArg ExceptT.run h
  exact Metered.map_injective (fun _ _ => Except.ok.inj) hrun

/-- The search from an offset is the search on the tags that scanning finds from there. -/
theorem sectionAt_eq_spanSearch {template : List Char} {origin : Nat} {tags : List PlacedTag}
    (h : Scans template origin tags) (name : String) :
    sectionAt template origin name = spanSearch name origin 0 tags := by
  have hspan : sectionSpan template name origin = .safe (spanSearch name origin 0 tags) :=
    map_scanSection_of_scans h (Nat.le_refl origin) 0
  rw [sectionSpan_eq] at hspan
  exact Checked.safe_injective hspan

/-- Scanning ends from every offset. -/
theorem exists_scans (template : List Char) (origin : Nat) :
    ∃ tags, Scans template origin tags := by
  cases hrest : Text.dropBytes? origin template with
  | none => exact ⟨[], .done (by rw [tagFrom?, hrest])⟩
  | some rest =>
      obtain ⟨front, rfl, rfl⟩ := Text.eq_append_of_dropBytes? hrest
      exact ⟨_, scans_tagsFrom front rest⟩

/-- **Where a section ends, and what it costs to find out.** Let `tags` be all tags that scanning
finds from an offset, and let `k` be the least number of them among which more close the section's
name than open it. If there is such a `k` and so many scans are left, the search ends at the `k`-th
tag after `k` scans. If there is none and as many scans are left as there are tags, the search finds
nothing after one scan for each tag. In all other cases it goes over the limit with the first scan
that is not left. Which tag it is that ends the section is decided by the tags that open or close
the name, all others left out. -/
theorem sectionAt_run (template : List Char) (origin : Nat) (name : String) (limits : Limits)
    (used : Nat) :
    ∃ tags, Scans template origin tags ∧
      let more : Set Nat := {k | openers name (tags.take k) < closes name (tags.take k)}
      let left := limits.maxTagScans - used
      let run := (sectionAt template origin name).run limits used
      (∀ k, IsLeast more k → k ≤ left → ∃ last, tags[k - 1]? = some last ∧
        run = (.ok (some ⟨origin, last.start, last.stop⟩), used + k)) ∧
      ((∀ k, k ∉ more) → tags.length ≤ left → run = (.ok none, used + tags.length)) ∧
      ((∀ k, IsLeast more k → left < k) → ((∀ k, k ∉ more) → left < tags.length) →
        run = (.error (.tagScans limits.maxTagScans), used + left + 1)) ∧
      ∀ j last, Ending name 0 (tags.filter (·.Concerns name)) j last ↔
        ∃ i, Ending name 0 tags i last ∧ (tags.take i).countP (·.Concerns name) = j := by
  obtain ⟨tags, hscans⟩ := exists_scans template origin
  refine ⟨tags, hscans, ?_⟩
  intro more left run
  have hrun : run = (spanSearch name origin 0 tags).run limits used := by
    rw [← sectionAt_eq_spanSearch hscans]
  refine ⟨?_, ?_, ?_, ?_⟩
  · intro k hk hle
    have hk : IsLeast (outnumbered name 0 tags) k := hk
    obtain ⟨i, last, rfl, hending⟩ := exists_ending hk
    refine ⟨last, hending.tag_eq, ?_⟩
    rw [hrun, spanSearch_of_ending hending, Metered.run_scans, if_pos hle]
  · intro hnone hle
    have hsearch : spanSearch name origin 0 tags = .scans tags.length (.done none) :=
      spanSearch_of_empty hnone
    rw [hrun, hsearch, Metered.run_scans, if_pos hle]
  · intro hsome hnone
    by_cases hempty : ∀ k, k ∉ more
    · have hsearch : spanSearch name origin 0 tags = .scans tags.length (.done none) :=
        spanSearch_of_empty hempty
      rw [hrun, hsearch, Metered.run_scans, if_neg (Nat.not_le_of_lt (hnone hempty))]
    · obtain ⟨k, hk⟩ := not_forall_not.mp hempty
      have hleast : IsLeast (outnumbered name 0 tags) _ := Nat.isLeast_find ⟨k, hk⟩
      have hless := hsome _ hleast
      obtain ⟨i, last, hi, hending⟩ := exists_ending hleast
      rw [hi] at hless
      rw [hrun, spanSearch_of_ending hending, Metered.run_scans, if_neg (Nat.not_le_of_lt hless)]
  · intro j last
    exact ending_filter_iff

/-- Behind the first tag of this template a section `a` ends at the fifth tag and a section `b` at
the third one, which takes more scans than two; a section `c` does not end. -/
theorem sectionAt_run_crossing :
    let template := (tagText "#a" ++ tagText "x" ++ tagText "^a" ++ tagText "/b" ++ tagText "/a" ++
      tagText "/a").toList
    (sectionAt template 6 "a").run ⟨5, 0⟩ 0 = (.ok (some ⟨6, 29, 35⟩), 5) ∧
      (sectionAt template 6 "b").run ⟨2, 0⟩ 0 = (.error (.tagScans 2), 3) ∧
      (sectionAt template 6 "c").run ⟨5, 0⟩ 0 = (.ok none, 5) := by
  intro template
  let placed : List PlacedTag :=
    [⟨.substitution "x", 6, 11⟩, ⟨.invertedOpen "a", 11, 17⟩, ⟨.sectionClose "b", 17, 23⟩,
      ⟨.sectionClose "a", 23, 29⟩, ⟨.sectionClose "a", 29, 35⟩]
  have hscans : Scans template 6 placed := by
    have htags : tagsFrom 6 (template.drop 6) = placed := by decide +kernel
    exact htags ▸ scans_tagsFrom (template.take 6) (template.drop 6)
  have least {name : String} {k : Nat} (hk : k ∈ outnumbered name 0 placed)
      (hless : ∀ j < k, j ∉ outnumbered name 0 placed) :
      IsLeast (outnumbered name 0 placed) k := by
    refine ⟨hk, ?_⟩
    intro j hj
    exact Nat.le_of_not_lt fun hlt => hless j hlt hj
  refine ⟨?_, ?_, ?_⟩
  · obtain ⟨tags, h, hfound, -⟩ := sectionAt_run template 6 "a" ⟨5, 0⟩ 0
    obtain rfl := h.unique hscans
    have hleast : IsLeast (outnumbered "a" 0 placed) 5 :=
      least (by decide +kernel) (by decide +kernel)
    obtain ⟨last, hlast, hrun⟩ := hfound 5 hleast (by decide)
    obtain rfl := Option.some.inj hlast
    exact hrun
  · obtain ⟨tags, h, -, -, hlimit, -⟩ := sectionAt_run template 6 "b" ⟨2, 0⟩ 0
    obtain rfl := h.unique hscans
    have hleast : IsLeast (outnumbered "b" 0 placed) 3 := least (by decide) (by decide)
    refine hlimit ?_ ?_
    · intro k hk
      rw [hk.unique hleast]
      decide
    · intro hnone
      exact absurd hleast.1 (hnone 3)
  · obtain ⟨tags, h, -, hnone, -⟩ := sectionAt_run template 6 "c" ⟨5, 0⟩ 0
    obtain rfl := h.unique hscans
    refine hnone ?_ (by decide)
    intro k hk
    have hcloses : closes "c" (placed.take k) ≤ closes "c" placed :=
      (List.take_sublist k placed).countP_le
    have hzero : closes "c" placed = 0 := by decide
    have hk : openers "c" (placed.take k) < closes "c" (placed.take k) := hk
    omega

end Vitae.Template
