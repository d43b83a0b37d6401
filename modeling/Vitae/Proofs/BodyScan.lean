import Vitae.Proofs.Concatenation
import Vitae.Proofs.SectionSearch

/-!
# Scanning the body of a section

The body of a section is cut out of the template and scanned anew. Cutting a text can make and
unmake pairs of braces, and sections of other names may reach beyond the cut; `body_scan` says what
becomes of the tags and of the sections in a body.

The scan of the body finds the tags that the search for the close tag has passed, since the body
ends with the literal text before a tag (`exists_body`). Offsets into the body are those into the
template less the offset at which the body begins, so both searches are searches on the same tags
(`spanSearch_shift`), of which the body has only the first ones (`value_spanSearch_append`). That a
section of the same name ends in the body is a matter of counting: up to a tag inside the body the
close tags do not outnumber the opening ones, and at its end they are as many (`Ending.balance`).
-/

namespace Vitae.Template

open Text (byteCount slice)

/-! ### Offsets into a part -/

/-- The tag at its place in a text, when its place in the part that begins at the offset `s` is
given. -/
def PlacedTag.shift (s : Nat) (placed : PlacedTag) : PlacedTag :=
  { placed with start := s + placed.start, stop := s + placed.stop }

/-- The same for the place of a section. -/
def SectionSpan.shift (s : Nat) (span : SectionSpan) : SectionSpan :=
  ⟨s + span.start, s + span.stop, s + span.next⟩

theorem placed_shift (c : Cut) (s origin : Nat) :
    c.placed (s + origin) = (c.placed origin).shift s := by
  simp [Cut.placed, PlacedTag.shift, Nat.add_assoc]

theorem tagsFrom_shift (s origin : Nat) (t : List Char) :
    tagsFrom (s + origin) t = (tagsFrom origin t).map (.shift s) := by
  induction ht : t.length using Nat.strongRecOn generalizing origin t with
  | ind n ih =>
  subst ht
  cases h : cut t with
  | none => rw [tagsFrom_of_none h, tagsFrom_of_none h, List.map_nil]
  | some c =>
      rw [tagsFrom_of_cut h, tagsFrom_of_cut h, List.map_cons, placed_shift,
        ← ih _ (length_after_lt h) _ _ rfl]
      rfl

/-- The tags from an offset on are the tags of the part that begins there. -/
theorem tagsFrom_eq_map (origin : Nat) (t : List Char) :
    tagsFrom origin t = (allTags t).map (.shift origin) := tagsFrom_shift origin 0 t

/-! ### The body and its tags -/

/-- In front of its first tag a text is divided so: the literal text has no tag, and the tag is
found again at the beginning of what stands behind. -/
theorem cut_behind {t : List Char} {c : Cut} (h : cut t = some c) :
    ∃ behind, t = c.before ++ behind ∧ cut behind = some { c with before := [] } ∧
      cut c.before = none ∧ ¬ ['{', '{'] <:+: c.before := by
  obtain ⟨-, hopen, hclose⟩ := cut_eq_some_iff.mp h
  have hnone : ¬ ['{', '{'] <:+: [] ++ ['{'] := by decide
  refine ⟨_, eq_of_cut h, cut_eq_some_iff.mpr ⟨?_, hnone, hclose⟩, cut_before h, ?_⟩
  · simp [Cut.whole]
  · exact fun hpair => hopen (hpair.trans (List.prefix_append _ _).isInfix)

/-- A text is divided in front of each of its tags: what stands before the tag has the tags before
it for its own, and no pair of opening braces behind them. -/
theorem exists_body {origin : Nat} {t : List Char} {visited rest : List PlacedTag}
    {close : PlacedTag} (h : tagsFrom origin t = visited ++ close :: rest) :
    ∃ body behind, t = body ++ behind ∧ tagsFrom origin body = visited ∧
      close.start = origin + byteCount body ∧
      tagsFrom (origin + byteCount body) behind = close :: rest ∧
      ¬ ['{', '{'] <:+: ending body := by
  induction visited generalizing origin t with
  | nil =>
      cases hcut : cut t with
      | none =>
          rw [tagsFrom_of_none hcut] at h
          cases h
      | some c =>
          rw [tagsFrom_of_cut hcut] at h
          obtain ⟨rfl, rfl⟩ := List.cons.inj h
          obtain ⟨behind, ht, hbehind, hnone, hending⟩ := cut_behind hcut
          refine ⟨c.before, behind, ht, tagsFrom_of_none hnone origin, rfl, ?_, ?_⟩
          · rw [tagsFrom_of_cut hbehind]
            rfl
          · rwa [ending_of_none hnone]
  | cons first visited ih =>
      cases hcut : cut t with
      | none =>
          rw [tagsFrom_of_none hcut] at h
          cases h
      | some c =>
          rw [tagsFrom_of_cut hcut] at h
          obtain ⟨rfl, hrest⟩ := List.cons.inj h
          obtain ⟨body, behind, hafter, hbody, hstart, hbehind, hending⟩ := ih hrest
          have hwhole := cut_whole_append hcut body
          have hcount : (c.placed origin).stop + byteCount body =
              origin + byteCount (c.whole ++ body) := by
            rw [Cut.stop_placed, Text.byteCount_append, Nat.add_assoc]
          rw [hcount] at hstart hbehind
          refine ⟨c.whole ++ body, behind, ?_, ?_, hstart, hbehind, ?_⟩
          · rw [List.append_assoc, ← hafter]
            exact eq_whole_append hcut
          · rw [tagsFrom_of_cut hwhole]
            exact congrArg _ hbody
          · rw [ending_of_cut hwhole]
            exact hending

/-- Tags that stand in order end behind the first offset and not behind the last one. -/
theorem InOrder.stop_mem {first last : Nat} {tags : List PlacedTag} (h : InOrder first tags last) :
    ∀ placed ∈ tags, first < placed.stop ∧ placed.stop ≤ last := by
  suffices hboth : first ≤ last ∧ ∀ placed ∈ tags, first < placed.stop ∧ placed.stop ≤ last from
    hboth.2
  induction tags generalizing first with
  | nil => exact ⟨h, by simp⟩
  | cons placed rest ih =>
      obtain ⟨hstart, hstop, hrest⟩ := h
      obtain ⟨hlast, hmem⟩ := ih hrest
      refine ⟨by omega, ?_⟩
      intro other hother
      rcases List.mem_cons.mp hother with rfl | hlater
      · exact ⟨by omega, hlast⟩
      · obtain ⟨hbehind, hle⟩ := hmem other hlater
        exact ⟨by omega, hle⟩

/-- Behind a tag, scanning goes on with the tags after it. -/
theorem Scans.behind {template : List Char} {origin : Nat} {before after : List PlacedTag}
    {placed : PlacedTag} (h : Scans template origin (before ++ placed :: after)) :
    Scans template placed.stop after := by
  induction before generalizing origin with
  | nil =>
      cases h with
      | tag _ hrest => exact hrest
  | cons first before ih =>
      cases h with
      | tag _ hrest => exact ih hrest

/-! ### Searches on the tags of a part -/

section

variable {name : String} {origin nested k : Nat} {tags more : List PlacedTag}

/-- A search does not depend on where the text begins. -/
theorem spanSearch_shift (s : Nat) :
    spanSearch name (s + origin) nested (tags.map (.shift s)) =
      Option.map (.shift s) <$> spanSearch name origin nested tags := by
  induction tags generalizing nested with
  | nil => rfl
  | cons placed rest ih =>
      simp only [Metered.map_eq_bind] at ih ⊢
      rw [List.map_cons, spanSearch_cons, spanSearch_cons, Metered.scan_bind]
      congr 1
      funext _
      have htag : (placed.shift s).tag = placed.tag := rfl
      rw [htag]
      split
      · exact ih
      · split
        · cases nested with
          | zero => rfl
          | succ nested => exact ih
        · exact ih

/-- What a search finds ends with the tag that ends the section. -/
theorem exists_ending_of_value {span : SectionSpan}
    (h : (spanSearch name origin nested tags).value = some span) :
    ∃ i last, Ending name nested tags i last ∧ span = ⟨origin, last.start, last.stop⟩ := by
  by_cases hempty : ∀ k, k ∉ outnumbered name nested tags
  · rw [spanSearch_of_empty hempty, Metered.value_scans] at h
    cases h
  · obtain ⟨k, hk⟩ := not_forall_not.mp hempty
    obtain ⟨i, last, -, hending⟩ := exists_ending (Nat.isLeast_find ⟨k, hk⟩)
    rw [spanSearch_of_ending hending, Metered.value_scans] at h
    exact ⟨i, last, hending, (Option.some.inj h).symm⟩

/-- Where the close tags come to outnumber the opening ones, a search finds something. -/
theorem isSome_value_spanSearch (h : k ∈ outnumbered name nested tags) :
    (spanSearch name origin nested tags).value.isSome := by
  obtain ⟨i, last, -, hending⟩ := exists_ending (Nat.isLeast_find ⟨k, h⟩)
  rw [spanSearch_of_ending hending, Metered.value_scans]
  rfl

/-- A search on the first tags finds what the search on all of them finds, if that ends among the
first ones. -/
theorem value_spanSearch_append {stop : Nat} (hfirst : ∀ placed ∈ tags, placed.stop ≤ stop)
    (hmore : ∀ placed ∈ more, stop < placed.stop) :
    (spanSearch name origin nested tags).value =
      (spanSearch name origin nested (tags ++ more)).value.filter (·.next ≤ stop) := by
  induction tags generalizing nested with
  | nil =>
      symm
      refine Option.filter_eq_none_iff.mpr ?_
      intro span hspan
      obtain ⟨i, last, hending, rfl⟩ := exists_ending_of_value hspan
      have hbehind := hmore last (List.mem_of_getElem? hending.tag_eq)
      simpa using hbehind
  | cons placed rest ih =>
      obtain ⟨hstop, hrest⟩ := List.forall_mem_cons.mp hfirst
      rw [List.cons_append, spanSearch_cons, spanSearch_cons, Metered.value_scan,
        Metered.value_scan]
      split
      · exact ih hrest
      · split
        · cases nested with
          | zero => simp [Option.filter_some, hstop]
          | succ nested => exact ih hrest
        · exact ih hrest

end

/-! ### Sections of the same name -/

section

variable {name : String} {visited rest : List PlacedTag} {close : PlacedTag}

/-- Up to the tag that ends a section as many tags close its name as open it, and no more of them up
to any tag before. -/
theorem Ending.balance (h : Ending name 0 (visited ++ close :: rest) visited.length close) :
    close.tag = .sectionClose name ∧ closes name visited = openers name visited ∧
      ∀ front, front <+: visited → closes name front ≤ openers name front := by
  have hbefore (front : List PlacedTag) (hfront : front <+: visited) :
      closes name front ≤ openers name front := by
    have hnot : front.length ∉ outnumbered name 0 (visited ++ close :: rest) := by
      intro hmem
      have hleast := h.least.2 hmem
      have hlength := hfront.length_le
      omega
    obtain ⟨between, rfl⟩ := hfront
    rw [mem_outnumbered_iff, List.append_assoc, List.take_left] at hnot
    omega
  have hends := h.least.1
  have htake : (visited ++ close :: rest).take (visited.length + 1) = visited ++ [close] :=
    List.take_length_add_append ..
  rw [mem_outnumbered_iff, htake, openers, closes, List.countP_append, List.countP_append] at hends
  have hvisited := hbefore visited List.prefix_rfl
  unfold openers closes at hvisited ⊢
  have hclose : close.tag = .sectionClose name := by
    by_contra hother
    simp only [List.countP_cons, List.countP_nil, hother, decide_false, Bool.false_eq_true,
      if_false] at hends
    omega
  have hone : [close].countP (·.tag = .sectionClose name) = 1 := by simp [hclose]
  exact ⟨hclose, by omega, hbefore⟩

/-- Behind a tag that opens the same name again, more of the tags up to the end of the section close
the name than open it. -/
theorem Ending.closed_inside {before after : List PlacedTag} {placed : PlacedTag}
    (h : Ending name 0 (visited ++ close :: rest) visited.length close)
    (hvisited : visited = before ++ placed :: after) (hopen : placed.tag.opens? = some name) :
    openers name after < closes name after := by
  obtain ⟨-, hequal, hbefore⟩ := h.balance
  have hfront := hbefore before (hvisited ▸ List.prefix_append ..)
  have hnot : placed.tag ≠ .sectionClose name := by
    intro hclose
    simp [hclose, Tag.opens?] at hopen
  subst hvisited
  simp only [openers, closes, List.countP_append, List.countP_cons, hopen, hnot, decide_true,
    decide_false, Bool.false_eq_true, if_true, if_false] at hequal hfront ⊢
  omega

end

/-! ### The body of a section -/

/-- A search that finds something stops at a tag: the tags before it are those that were passed. -/
theorem exists_visited {name : String} {origin : Nat} {tags : List PlacedTag} {span : SectionSpan}
    (h : (spanSearch name origin 0 tags).value = some span) :
    ∃ visited close rest, tags = visited ++ close :: rest ∧
      Ending name 0 tags visited.length close ∧ span = ⟨origin, close.start, close.stop⟩ := by
  obtain ⟨i, close, hending, rfl⟩ := exists_ending_of_value h
  obtain ⟨hi, hclose⟩ := List.getElem?_eq_some_iff.mp hending.tag_eq
  refine ⟨tags.take i, close, tags.drop (i + 1), ?_, ?_, rfl⟩
  · rw [← hclose, ← List.drop_eq_getElem_cons hi, List.take_append_drop]
  · rwa [List.length_take_of_le (Nat.le_of_lt hi)]

/-- A search behind a tag of a body, with its offsets in the template, is a search on the tags of the
body behind that tag. -/
theorem value_sectionAt_body {body : List Char} {before after : List PlacedTag}
    {placed : PlacedTag} (h : allTags body = before ++ placed :: after) (s : Nat) (name : String) :
    (sectionAt body placed.stop name).value.map (.shift s) =
      (spanSearch name (s + placed.stop) 0 (after.map (.shift s))).value := by
  have hscans : Scans body 0 (allTags body) := scans_tagsFrom [] body
  rw [h] at hscans
  rw [sectionAt_eq_spanSearch hscans.behind, spanSearch_shift, Metered.map_eq_bind,
    ← Metered.bind_eq_bind, Metered.value_bind, Metered.value_done]

/-- **Bodies are scanned as they were passed.** Let the search for the end of a section find one.
The body that lies between its offsets can be taken out, and scanning it finds the tags that the
search has passed before the close tag, at their places in the body; no pair of opening braces
stands behind the last of them. Every section of the same name that begins in the body is closed in
it. Behind any tag of the body a section of any name ends in the body where it ends in the template,
if that is not behind the body, and otherwise it is not closed in the body. -/
theorem body_scan (template : List Char) (origin : Nat) (name : String) (span : SectionSpan)
    (h : (sectionAt template origin name).value = some span) :
    ∃ body visited rest,
      slice template span.start span.stop = .ok body ∧ span.start = origin ∧
      Scans template origin (visited ++ ⟨.sectionClose name, span.stop, span.next⟩ :: rest) ∧
      (sectionAt template origin name).events = .replicate (visited.length + 1) .scan ∧
      (allTags body).map (.shift span.start) = visited ∧ ¬ ['{', '{'] <:+: ending body ∧
      (∀ placed ∈ allTags body, placed.tag.opens? = some name →
        (sectionAt body placed.stop name).value.isSome) ∧
      ∀ placed ∈ allTags body, ∀ other,
        (sectionAt body placed.stop other).value.map (.shift span.start) =
          (sectionAt template (span.start + placed.stop) other).value.filter
            (·.next ≤ span.stop) := by
  cases hdrop : Text.dropBytes? origin template with
  | none =>
      rw [sectionAt, hdrop] at h
      cases h
  | some t =>
  obtain ⟨front, rfl, rfl⟩ := Text.eq_append_of_dropBytes? hdrop
  have hscans := scans_tagsFrom front t
  have hsearch := sectionAt_eq_spanSearch hscans name
  rw [hsearch] at h
  obtain ⟨visited, close, rest, htags, hending, rfl⟩ := exists_visited h
  obtain ⟨body, behind, rfl, hbody, hstart, hbehind, hliteral⟩ := exists_body htags
  rw [htags] at hscans hending
  obtain ⟨hclose, -, -⟩ := hending.balance
  have hvisited : (allTags body).map (.shift (byteCount front)) = visited := by
    rw [← tagsFrom_eq_map, hbody]
  have hevents := congrArg Metered.events hsearch
  rw [htags, spanSearch_of_ending hending, Metered.events_scans] at hevents
  -- where the tags of the body stand, and where those behind it
  have hinside (placed : PlacedTag) (hplaced : placed ∈ visited) : placed.stop ≤ close.start := by
    have horder := inOrder_tagsFrom (byteCount front) body
    rw [hbody, ← hstart] at horder
    exact (horder.stop_mem placed hplaced).2
  have houtside (placed : PlacedTag) (hplaced : placed ∈ close :: rest) :
      close.start < placed.stop := by
    have horder := inOrder_tagsFrom (byteCount front + byteCount body) behind
    rw [hbehind, ← hstart] at horder
    exact (horder.stop_mem placed hplaced).1
  refine ⟨body, visited, rest, ?_, rfl, ?_, ?_, hvisited, hliteral, ?_, ?_⟩
  · have hslice := Text.slice_append front body behind
    rwa [List.append_assoc, Text.byteCount_append, ← hstart] at hslice
  · rw [← hclose]
    exact hscans
  · simpa using hevents
  · intro placed hplaced hopen
    obtain ⟨before, after, hsplit⟩ := List.append_of_mem hplaced
    have hmap := hvisited.symm
    rw [hsplit, List.map_append, List.map_cons] at hmap
    have hmore := hending.closed_inside hmap hopen
    rw [← Option.isSome_map, value_sectionAt_body hsplit (byteCount front)]
    refine isSome_value_spanSearch (k := (after.map (PlacedTag.shift (byteCount front))).length) ?_
    rwa [mem_outnumbered_iff, List.take_length]
  · intro placed hplaced other
    obtain ⟨before, after, hsplit⟩ := List.append_of_mem hplaced
    have hafter (shifted : PlacedTag) (hmem : shifted ∈ after.map (.shift (byteCount front))) :
        shifted ∈ visited := by
      rw [← hvisited, hsplit, List.map_append, List.map_cons]
      exact List.mem_append_right _ (List.mem_cons_of_mem _ hmem)
    -- in the template, the tags behind this one go on with the close tag
    rw [← hvisited, hsplit, List.map_append, List.map_cons, List.append_assoc] at hscans
    have htemplate : sectionAt (front ++ (body ++ behind)) (byteCount front + placed.stop) other =
        _ := sectionAt_eq_spanSearch hscans.behind other
    rw [value_sectionAt_body hsplit, htemplate]
    exact value_spanSearch_append (fun shifted hmem => hinside shifted (hafter shifted hmem))
      houtside

/-- The body of this section `a` holds a section of the same name, which is closed in it, and begins
a section `b`, which is closed behind it only. -/
theorem body_scan_crossing :
    let template := (tagText "#a" ++ "é" ++ tagText "#b" ++ tagText "#a" ++ tagText "/a" ++
      tagText "/a" ++ tagText "/b").toList
    (sectionAt template 6 "a").value = some ⟨6, 26, 32⟩ ∧
      ∃ body, slice template 6 26 = .ok body ∧ (sectionAt body 14 "a").value.isSome ∧
        (sectionAt template 14 "b").value = some ⟨14, 32, 38⟩ ∧
        (sectionAt body 8 "b").value = none := by
  intro template
  have h : (sectionAt template 6 "a").value = some ⟨6, 26, 32⟩ := by decide +kernel
  have hb : (sectionAt template 14 "b").value = some ⟨14, 32, 38⟩ := by decide +kernel
  obtain ⟨body, visited, rest, hslice, -, -, -, -, -, hsame, hany⟩ := body_scan template 6 "a" _ h
  have hbody : slice template 6 26 = .ok ("é" ++ tagText "#b" ++ tagText "#a" ++
      tagText "/a").toList := by decide +kernel
  obtain rfl := Except.ok.inj (hbody.symm.trans hslice)
  refine ⟨h, _, hslice, ?_, hb, ?_⟩
  · exact hsame ⟨.sectionOpen "a", 8, 14⟩ (by decide +kernel) rfl
  · have hnone : (sectionAt _ 8 "b").value.map (.shift 6) =
        (sectionAt template 14 "b").value.filter (·.next ≤ 26) :=
      hany ⟨.sectionOpen "b", 2, 8⟩ (by decide +kernel) "b"
    rw [hb] at hnone
    exact Option.map_eq_none_iff.mp hnone

end Vitae.Template
