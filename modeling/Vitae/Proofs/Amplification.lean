import Mathlib.Order.Bounds.Basic
import Vitae.Proofs.Hereditary
import Vitae.Proofs.Offsets
import Vitae.Proofs.Reference
import Vitae.Proofs.ScanCost
import Vitae.Proofs.SectionText

/-!
# How much longer a page is than its template

A body without tags is copied once for each item of a list, and none of the copies is a scan. What
is charged is the opening tag: each scan pays for the bodies of one section at most, and these are
no more than the longest list of the data has items. `Covered` is this account, kept at every event
of a run; `Renders.covered` says that no run goes into debt.

The length of a page follows. Every body that is entered copies no more bytes than the template has,
and every scan leaves no more than the widest text of a value (`Renders.byteCount_le`). Both proofs
follow the rules of the run.
-/

namespace Vitae

open Text (byteCount)

theorem isLUB_max? (l : List Nat) : IsLUB {n | n ∈ l} (l.max?.getD 0) := by
  refine ⟨fun n hn => List.le_max?_getD_of_mem hn, fun bound hbound => ?_⟩
  cases hmax : l.max? with
  | none => exact Nat.zero_le _
  | some greatest => exact hbound (List.max?_eq_some_iff.mp hmax).1

/-! ### The values within a value -/

namespace Json

mutual

/-- A value and the values within it, however deep they lie. -/
def parts : Json → List Json
  | .arr items => .arr items :: itemParts items
  | .obj fields => .obj fields :: fieldParts fields
  | value => [value]

/-- The values within the items of an array. -/
def itemParts : List Json → List Json
  | [] => []
  | item :: rest => item.parts ++ itemParts rest

/-- The values within the fields of an object. -/
def fieldParts : List (String × Json) → List Json
  | [] => []
  | (_, value) :: rest => value.parts ++ fieldParts rest

end

theorem self_mem_parts (value : Json) : value ∈ value.parts := by
  cases value <;> simp [parts]

theorem mem_itemParts {items : List Json} {item part : Json} (hitem : item ∈ items)
    (hpart : part ∈ item.parts) : part ∈ itemParts items := by
  induction items with
  | nil => cases hitem
  | cons first rest ih =>
      rw [itemParts, List.mem_append]
      rcases List.mem_cons.mp hitem with rfl | hrest
      · exact .inl hpart
      · exact .inr (ih hrest)

theorem mem_fieldParts {fields : Fields} {field : String × Json} {part : Json}
    (hfield : field ∈ fields) (hpart : part ∈ field.2.parts) : part ∈ fieldParts fields := by
  induction fields with
  | nil => cases hfield
  | cons first rest ih =>
      rw [fieldParts, List.mem_append]
      rcases List.mem_cons.mp hfield with rfl | hrest
      · exact .inl hpart
      · exact .inr (ih hrest)

mutual

/-- What lies within a part of a value lies within the value. -/
theorem mem_parts_of_mem {part inner : Json} (hinner : inner ∈ part.parts) :
    ∀ {value : Json}, part ∈ value.parts → inner ∈ value.parts
  | .arr items, h => by
      rw [parts] at h ⊢
      rcases List.mem_cons.mp h with rfl | h
      · exact hinner
      · exact List.mem_cons_of_mem _ (mem_itemParts_of_mem hinner h)
  | .obj fields, h => by
      rw [parts] at h ⊢
      rcases List.mem_cons.mp h with rfl | h
      · exact hinner
      · exact List.mem_cons_of_mem _ (mem_fieldParts_of_mem hinner h)
  | .null, h | .bool _, h | .num _, h | .str _, h => List.mem_singleton.mp h ▸ hinner

theorem mem_itemParts_of_mem {part inner : Json} (hinner : inner ∈ part.parts) :
    ∀ {items : List Json}, part ∈ itemParts items → inner ∈ itemParts items
  | [], h => nomatch h
  | item :: rest, h => by
      rw [itemParts, List.mem_append] at h ⊢
      exact h.imp (mem_parts_of_mem hinner) (mem_itemParts_of_mem hinner)

theorem mem_fieldParts_of_mem {part inner : Json} (hinner : inner ∈ part.parts) :
    ∀ {fields : List (String × Json)}, part ∈ fieldParts fields → inner ∈ fieldParts fields
  | [], h => nomatch h
  | (_, value) :: rest, h => by
      rw [fieldParts, List.mem_append] at h ⊢
      exact h.imp (mem_parts_of_mem hinner) (mem_fieldParts_of_mem hinner)

end

theorem hereditary_mem_parts (data : Json) : Hereditary (· ∈ data.parts) where
  items _ h item hitem :=
    mem_parts_of_mem (List.mem_cons_of_mem _ (mem_itemParts hitem (self_mem_parts item))) h
  fields _ h field hfield :=
    mem_parts_of_mem (List.mem_cons_of_mem _ (mem_fieldParts hfield (self_mem_parts field.2))) h

/-- The length of the longest array within a value; zero when there is none. -/
def longestArray (data : Json) : Nat :=
  ((data.parts.filterMap items?).map List.length).max?.getD 0

theorem items?_eq_some_iff {value : Json} {items : List Json} :
    value.items? = some items ↔ value = .arr items := by
  cases value <;> simp [items?]

theorem isLUB_longestArray (data : Json) :
    IsLUB {n | ∃ items, .arr items ∈ data.parts ∧ items.length = n} data.longestArray := by
  have h := isLUB_max? ((data.parts.filterMap items?).map List.length)
  simp only [List.mem_map, List.mem_filterMap, items?_eq_some_iff, exists_eq_right] at h
  exact h

end Json

/-! ### The widest text of a value -/

namespace Html

/-- A path of each kind at which a value may be shown: a work history, an education, and any
other. -/
def samplePaths : List String := ["workExperience", educationPath, ""]

theorem format_congr {path other : String}
    (h : ∀ items, formatList items path = formatList items other) (value : Option Json) :
    format value path = format value other := by
  cases value with
  | none => rfl
  | some value =>
      simp only [format]
      split
      · rfl
      · split <;> first | rfl | exact h _

/-- A value is shown at any path as it is at one of the samples. -/
theorem exists_samplePath (path : String) :
    ∃ sample ∈ samplePaths, ∀ value, format value path = format value sample := by
  by_cases hwork : path ∈ workPaths
  · refine ⟨"workExperience", by decide, format_congr fun items => ?_⟩
    rw [formatList, formatList, if_pos hwork, if_pos (by decide)]
  by_cases heducation : path = educationPath
  · exact ⟨educationPath, by decide, fun value => by rw [heducation]⟩
  · refine ⟨"", by decide, format_congr fun items => ?_⟩
    rw [formatList, formatList, if_neg hwork, if_neg heducation, if_neg (by decide),
      if_neg (by decide)]

/-- The byte lengths of what a value and the values within it are shown as. -/
def shownLengths (data : Json) : List Nat :=
  data.parts.flatMap fun value =>
    samplePaths.map fun path => byteCount (format (some value) path).toList

/-- The greatest of these lengths. -/
def widestText (data : Json) : Nat := (shownLengths data).max?.getD 0

theorem mem_shownLengths_iff {data : Json} {n : Nat} :
    n ∈ shownLengths data ↔
      ∃ value ∈ data.parts, ∃ path, byteCount (format (some value) path).toList = n := by
  simp only [shownLengths, List.mem_flatMap, List.mem_map]
  refine exists_congr fun value => and_congr_right fun _ => ⟨?_, ?_⟩
  · intro h
    obtain ⟨path, -, hn⟩ := h
    exact ⟨path, hn⟩
  · intro h
    obtain ⟨path, hn⟩ := h
    obtain ⟨sample, hsample, hsame⟩ := exists_samplePath path
    exact ⟨sample, hsample, hsame (some value) ▸ hn⟩

theorem isGreatest_widestText (data : Json) :
    IsGreatest {n | ∃ value ∈ data.parts, ∃ path, byteCount (format (some value) path).toList = n}
      (widestText data) := by
  simp only [← mem_shownLengths_iff]
  refine ⟨?_, (isLUB_max? (shownLengths data)).1⟩
  have hmem : byteCount (format (some data) "").toList ∈ shownLengths data :=
    mem_shownLengths_iff.mpr ⟨data, data.self_mem_parts, "", rfl⟩
  rw [widestText]
  cases hmax : (shownLengths data).max? with
  | none => exact absurd hmem (List.max?_eq_none_iff.mp hmax ▸ List.not_mem_nil)
  | some greatest => exact (List.max?_eq_some_iff.mp hmax).1

end Html

namespace Template

open Json (Hereditary hereditary_mem_parts)

/-- What values that a template can reach are bounded by: their lists have no more items than
`most`, and they are shown with no more bytes than `widest`. -/
structure Bounds (property : Json → Prop) (most widest : Nat) : Prop where
  parts : Hereditary property
  lists : ∀ items, property (.arr items) → items.length ≤ most
  shown : ∀ value path, property value →
    byteCount (Html.format (some value) path).toList ≤ widest

/-- The values within the data are bounded by the longest list and the widest text among them. -/
theorem bounds_mem_parts (data : Json) :
    Bounds (· ∈ data.parts) data.longestArray (Html.widestText data) where
  parts := hereditary_mem_parts data
  lists items hitems := data.isLUB_longestArray.1 ⟨items, hitems, rfl⟩
  shown value path hvalue := (Html.isGreatest_widestText data).2 ⟨value, hvalue, path, rfl⟩

/-! ### Bodies that scans pay for -/

/-- The number of section bodies that are entered in a sequence of events. -/
def enterCount (events : List Event) : Nat := events.countP (· ≠ .scan)

@[simp] theorem enterCount_nil : enterCount [] = 0 := rfl

@[simp] theorem enterCount_scan (events : List Event) :
    enterCount (.scan :: events) = enterCount events := by
  simp [enterCount]

@[simp] theorem enterCount_enter (depth : Nat) (events : List Event) :
    enterCount (.enter depth :: events) = enterCount events + 1 := by
  simp [enterCount]

@[simp] theorem enterCount_append (events more : List Event) :
    enterCount (events ++ more) = enterCount events + enterCount more := by
  simp [enterCount]

theorem enterCount_replicate (n depth : Nat) :
    enterCount (List.replicate n (.enter depth)) = n := by
  simp [enterCount, List.countP_replicate]

/-- Whether the bodies are paid for at every point of a sequence of events, when each scan pays for
so many and a credit pays for some more. -/
def Covered (each credit : Nat) (events : List Event) : Prop :=
  ∀ before, before <+: events → enterCount before ≤ credit + before.count .scan * each

namespace Covered

variable {each credit more : Nat} {events later : List Event}

theorem nil : Covered each credit [] := by
  intro before hbefore
  rw [List.prefix_nil.mp hbefore]
  exact Nat.zero_le _

theorem mono (h : Covered each credit events) (hle : credit ≤ more) :
    Covered each more events :=
  fun before hbefore => Nat.le_trans (h before hbefore) (Nat.add_le_add_right hle _)

/-- A scan adds to the credit. -/
theorem scan (h : Covered each (credit + each) events) : Covered each credit (.scan :: events) := by
  intro before hbefore
  obtain rfl | ⟨before, rfl, hrest⟩ := List.prefix_cons_iff.mp hbefore
  · exact Nat.zero_le _
  · have := h before hrest
    rw [enterCount_scan, List.count_cons_self, Nat.succ_mul]
    omega

/-- A body takes from the credit. -/
theorem enter (h : Covered each credit events) (depth : Nat) :
    Covered each (credit + 1) (.enter depth :: events) := by
  intro before hbefore
  obtain rfl | ⟨before, rfl, hrest⟩ := List.prefix_cons_iff.mp hbefore
  · exact Nat.zero_le _
  · have := h before hrest
    rw [enterCount_enter, List.count_cons_of_ne (by simp)]
    omega

theorem append (h : Covered each credit events) (hlater : Covered each more later) :
    Covered each (credit + more) (events ++ later) := by
  intro before hbefore
  obtain ⟨after, hsplit⟩ := hbefore
  obtain ⟨rest, rfl, -⟩ | ⟨start, rfl, rfl⟩ := List.append_eq_append_iff.mp hsplit
  · have := h before (List.prefix_append before rest)
    omega
  · have := h events List.prefix_rfl
    have := hlater start (List.prefix_append start after)
    rw [enterCount_append, List.count_append, Nat.add_mul]
    omega

end Covered

theorem Seeks.covered {name : String} {nested : Nat} {t : List Char} {events : List Event}
    {found : Option (List Char × List Char)} (h : Seeks name nested t events found) (each : Nat) :
    Covered each 0 events := by
  induction h with
  | exhausted => exact .nil
  | opener _ _ _ ih | inner _ _ _ ih | other _ _ _ _ ih => exact .scan (ih.mono (Nat.zero_le _))
  | close => exact .scan .nil

section

variable {property : Json → Prop} {most widest : Nat}

mutual

/-- Every run pays for its bodies: a scan pays for those of the section that begins there. -/
theorem Renders.covered (hbounds : Bounds property most widest) :
    ∀ {depth : Nat} {stack : Stack} {t : List Char} {html : String} {events : List Event},
      Renders depth stack t html events → stack.All property → Covered (max 1 most) 0 events
  | _, _, _, _, _, .copy _, _ => .nil
  | _, _, _, _, _, .plain _ _ rest, h => .scan ((rest.covered hbounds h).mono (Nat.zero_le _))
  | _, _, _, _, _, .unclosed _ _ search rest, h =>
      .scan (((search.covered _).append (rest.covered hbounds h)).mono (Nat.zero_le _))
  | _, _, _, _, _, @Renders.closed _ _ _ _ _ c _ _ _ _ _ _ _ _ search bodies rest, h => by
      have hbodies := bodies.covered hbounds fun _ hmem => h.of_mem_contexts hbounds.parts hmem
      have hcontexts := length_contexts_le hbounds.parts hbounds.lists h c.tag
      have hrest := rest.covered hbounds h
      refine .scan ((((search.covered _).append hbodies).append hrest).mono ?_)
      omega

/-- The bodies of a section are paid for by a credit of their number. -/
theorem RendersEach.covered (hbounds : Bounds property most widest) :
    ∀ {depth : Nat} {contexts : List Stack} {body : List Char} {html : String}
      {events : List Event}, RendersEach depth contexts body html events →
        (∀ context ∈ contexts, context.All property) →
          Covered (max 1 most) contexts.length events
  | _, _, _, _, _, .nil, _ => .nil
  | depth, _, _, _, _, .cons first rest, h => by
      have hfirst := first.covered hbounds (h _ List.mem_cons_self)
      have hrest := rest.covered hbounds fun context hmem => h context (List.mem_cons_of_mem _ hmem)
      rw [List.length_cons]
      exact .enter ((hfirst.append hrest).mono (by omega)) depth

end

/-! ### The length of a page -/

/-- What a tag leaves is no wider than any value is shown. -/
theorem byteCount_shown_le (hbounds : Bounds property most widest) {stack : Stack}
    (h : stack.All property) (tag : Tag) : byteCount (tag.shown stack).toList ≤ widest := by
  cases tag with
  | substitution path =>
      rw [Tag.shown]
      cases hvalue : stack.resolve? path with
      | none => exact Nat.zero_le _
      | some value => exact hbounds.shown value path (h.resolve? hbounds.parts hvalue)
  | _ => exact Nat.zero_le _

theorem byteCount_before_add_after_le {t : List Char} {c : Cut} (h : cut t = some c) :
    byteCount c.before + byteCount c.after ≤ byteCount t := by
  conv => rhs; rw [eq_whole_append h]
  simp only [Cut.whole, Text.byteCount_append]
  omega

/-- The body that a search finds and the text after it have no more bytes than the text. -/
theorem Seeks.byteCount_le {name : String} {nested : Nat} {t body after : List Char}
    {events : List Event} (h : Seeks name nested t events (some (body, after))) :
    byteCount body ≤ byteCount t ∧ byteCount after ≤ byteCount t := by
  obtain ⟨-, close, ht, -⟩ := h.value_events 0
  rw [ht]
  simp only [Text.byteCount_append]
  omega

/-- A piece that is copied once fits in where what follows it is copied more often. -/
theorem copied_le {piece rest all : Nat} (h : piece + rest ≤ all) (more : Nat) :
    piece + (1 + more) * rest ≤ (1 + more) * all :=
  calc piece + (1 + more) * rest
      ≤ (1 + more) * piece + (1 + more) * rest :=
        Nat.add_le_add_right (Nat.le_mul_of_pos_left _ (by omega)) _
    _ = (1 + more) * (piece + rest) := (Nat.mul_add ..).symm
    _ ≤ (1 + more) * all := Nat.mul_le_mul_left _ h

mutual

/-- A run leaves no more than a copy of its text for the text itself and for each body, and the
widest text for each scan. -/
theorem Renders.byteCount_le (hbounds : Bounds property most widest) :
    ∀ {depth : Nat} {stack : Stack} {t : List Char} {html : String} {events : List Event},
      Renders depth stack t html events → stack.All property →
        byteCount html.toList ≤
          (1 + enterCount events) * byteCount t + events.count .scan * widest
  | _, _, _, _, _, .copy _, _ => by simp
  | _, _, _, _, _, @Renders.plain _ _ _ c _ events hcut _ rest, h => by
      have htag := byteCount_shown_le hbounds h c.tag
      have hrest := rest.byteCount_le hbounds h
      have hcopied := copied_le (byteCount_before_add_after_le hcut) (enterCount events)
      simp only [String.toList_append, String.toList_ofList, Text.byteCount_append,
        enterCount_scan, List.count_cons_self, Nat.succ_mul]
      omega
  | _, _, _, _, _, @Renders.unclosed _ _ _ _ _ _ _ events hcut _ _ rest, h => by
      have hrest := rest.byteCount_le hbounds h
      have hcopied := copied_le (byteCount_before_add_after_le hcut) (enterCount events)
      simp only [String.toList_append, String.toList_ofList, Text.byteCount_append,
        enterCount_scan, enterCount_append, List.count_cons_self, List.count_append,
        Nat.add_mul] at hrest hcopied ⊢
      omega
  | _, _, t, _, _, @Renders.closed _ _ _ body _ c _ _ _ _ entered events hcut _ search bodies rest,
      h => by
      have hinner := bodies.byteCount_le hbounds fun context hmem =>
        h.of_mem_contexts hbounds.parts hmem
      have hrest := rest.byteCount_le hbounds h
      obtain ⟨hbody, hafter⟩ := search.byteCount_le
      have hsplit := byteCount_before_add_after_le hcut
      -- the body is as good as a copy of the whole text
      have hwhole : enterCount entered * byteCount body ≤ enterCount entered * byteCount t :=
        Nat.mul_le_mul_left _ (by omega)
      have hcopied := copied_le (Nat.le_trans (Nat.add_le_add_left hafter _) hsplit)
        (enterCount events)
      simp only [String.toList_append, String.toList_ofList, Text.byteCount_append,
        enterCount_scan, enterCount_append, List.count_cons_self, List.count_append,
        Nat.add_mul] at hinner hrest hcopied ⊢
      omega

/-- The bodies of a section leave a copy of the body for each body that is entered. -/
theorem RendersEach.byteCount_le (hbounds : Bounds property most widest) :
    ∀ {depth : Nat} {contexts : List Stack} {body : List Char} {html : String}
      {events : List Event}, RendersEach depth contexts body html events →
        (∀ context ∈ contexts, context.All property) →
          byteCount html.toList ≤ enterCount events * byteCount body + events.count .scan * widest
  | _, _, _, _, _, .nil, _ => Nat.zero_le _
  | depth, _, _, _, _, .cons first rest, h => by
      have hfirst := first.byteCount_le hbounds (h _ List.mem_cons_self)
      have hrest := rest.byteCount_le hbounds fun context hmem =>
        h context (List.mem_cons_of_mem _ hmem)
      rw [List.count_cons_of_ne (by simp)]
      simp only [String.toList_append, Text.byteCount_append, enterCount_enter, enterCount_append,
        List.count_append, Nat.add_mul] at hfirst hrest ⊢
      omega

end

end

/-! ### Copies that are not charged -/

/-- A section over a list with a body without tags takes two scans, however long the list is. -/
theorem renderIn_sectionText_copy {name body : String} (hname : IsName name)
    (hbody : IsBody name body.toList) (hcopy : cut body.toList = none) {stack : Stack}
    {items : List Json} (hitems : stack.resolve? name = some (.arr items)) :
    let page := renderIn stack (sectionText "#" name body)
    page.value = String.join (List.replicate items.length body) ∧
      page.events = .scan :: .scan :: List.replicate items.length (.enter 1) := by
  have hcontexts : ((Tag.sectionOpen name).contexts stack).length = items.length := by
    rw [Tag.contexts, hitems, sectionContexts, List.length_map]
  have hcopies (out : String) (context : Stack) :
      renderFrom 1 context out body.toList = .done (out ++ body) := by
    rw [renderFrom_of_none hcopy, String.ofList_toList]
  intro page
  let copies := ((Tag.sectionOpen name).contexts stack).foldlM (fun out _ =>
    Metered.enter 1 fun _ => .done (out ++ body)) ""
  have hpage : page = .scans 2 copies := by
    show renderFrom 0 stack "" _ = _
    rw [renderFrom_sectionText_nil hname hbody (by decide) hname.ofInner.1 rfl,
      tokens_of_none hcopy]
    simp only [hcopies]
    rfl
  have hvalue : copies.value = "" ++ String.join
      (((Tag.sectionOpen name).contexts stack).map fun _ => body) :=
    value_foldlM_enter (fun _ _ => rfl) _ ""
  have hevents : copies.events = ((Tag.sectionOpen name).contexts stack).flatMap fun _ =>
      [.enter 1] :=
    Metered.events_foldlM_enter (fun out _ => Metered.events_done (out ++ body)) _ ""
  rw [hpage]
  refine ⟨?_, ?_⟩
  · rw [Metered.value_scans, hvalue, String.empty_append, List.map_const', hcontexts]
  · rw [Metered.events_scans, hevents, List.flatMap_def, List.map_const',
      List.flatten_replicate_singleton, hcontexts]
    rfl

/-- **A page is not much longer than its template.** Let `m` be the length of the longest list in
the data and `F` the greatest number of bytes that a value within the data is shown with at any
path. A template that is rendered with so many scans has no more than `scans * max 1 m` section
bodies, and its page has no more bytes than so many copies of the template and one more, and `F` for
each scan. The bodies are paid for at every event on the way, so this holds of renders that go over
a limit as well. The scans alone would not do: a section over a list whose body has no tags takes
two scans, however many copies of the body it leaves. -/
theorem output_amplification (data : Json) :
    let m := data.longestArray
    let F := Html.widestText data
    IsLUB {n | ∃ items, .arr items ∈ data.parts ∧ items.length = n} m ∧
    IsGreatest {n | ∃ value ∈ data.parts, ∃ path,
      byteCount (Html.format (some value) path).toList = n} F ∧
    (∀ (limits : Limits) (template html : String) (scans : Nat),
      (renderIn [.record data] template).run limits 0 = (.ok html, scans) →
        byteCount html.toList ≤
          (1 + scans * max 1 m) * byteCount template.toList + scans * F ∧
        1 + enterCount (renderIn [.record data] template).events ≤ 1 + scans * max 1 m) ∧
    (∀ (template : String) (before : List Event),
      before <+: (renderIn [.record data] template).events →
        enterCount before ≤ before.count .scan * max 1 m) ∧
    ∀ (name body : String) (items : List Json), IsName name → IsBody name body.toList →
      cut body.toList = none → Stack.resolve? [.record data] name = some (.arr items) →
        let page := renderIn [.record data] (sectionText "#" name body)
        page.value = String.join (List.replicate items.length body) ∧ page.scanCount = 2 ∧
          enterCount page.events = items.length := by
  intro m F
  have hbounds := bounds_mem_parts data
  have hstack : Stack.All (· ∈ data.parts) [.record data] := by
    intro frame hframe
    obtain rfl := List.mem_singleton.mp hframe
    exact data.self_mem_parts
  have hcovered (template : String) :
      Covered (max 1 m) 0 (renderIn [.record data] template).events := by
    obtain ⟨html, events, hrun⟩ := exists_renders 0 [.record data] template.toList
    rw [renderIn, (hrun.value_events "").2]
    exact hrun.covered hbounds hstack
  refine ⟨data.isLUB_longestArray, Html.isGreatest_widestText data, ?_, ?_, ?_⟩
  · intro limits template html scans hok
    obtain ⟨out, events, hrun⟩ := exists_renders 0 [.record data] template.toList
    obtain ⟨hvalue, hevents⟩ := hrun.value_events ""
    have hhtml : html = out := by
      obtain ⟨-, rfl⟩ := Metered.run_eq_ok_iff.mp (congrArg Prod.fst hok)
      rw [renderIn, hvalue, String.empty_append]
    have hscans : scans = events.count .scan := by
      rw [Metered.eq_add_scanCount_of_run hok, Nat.zero_add, Metered.scanCount, renderIn, hevents]
    have hbodies : enterCount events ≤ scans * max 1 m := by
      have := hcovered template _ List.prefix_rfl
      rwa [renderIn, hevents, Nat.zero_add, ← hscans] at this
    rw [renderIn, hevents, hhtml]
    refine ⟨?_, Nat.add_le_add_left hbodies 1⟩
    calc byteCount out.toList
        ≤ (1 + enterCount events) * byteCount template.toList + events.count .scan * F :=
          hrun.byteCount_le hbounds hstack
      _ ≤ (1 + scans * max 1 m) * byteCount template.toList + scans * F := by
          rw [← hscans]
          exact Nat.add_le_add_right (Nat.mul_le_mul_right _ (Nat.add_le_add_left hbodies 1)) _
  · intro template before hbefore
    have hbodies := hcovered template before hbefore
    rwa [Nat.zero_add] at hbodies
  · intro name body items hname hbody hcopy hitems page
    obtain ⟨hvalue, hevents⟩ := renderIn_sectionText_copy hname hbody hcopy hitems
    refine ⟨hvalue, ?_, ?_⟩
    · rw [Metered.scanCount, hevents, List.count_cons_self, List.count_cons_self,
        List.count_replicate]
      rfl
    · rw [hevents, enterCount_scan, enterCount_scan, enterCount_replicate]

/-- A list of two items, shown in a body with one tag and copied in a body with none. -/
theorem output_amplification_list :
    let data : Json := .obj [("a", .arr [.str "<", .str "2"])]
    let page := renderIn [.record data] (sectionText "#" "a" (tagText "."))
    let copies := renderIn [.record data] (sectionText "#" "a" "x")
    data.longestArray = 2 ∧ Html.widestText data = 7 ∧ page.run ⟨9, 9⟩ 0 = (.ok "&lt;2", 5) ∧
      byteCount "&lt;2".toList ≤ (1 + 5 * 2) * 17 + 5 * 7 ∧
      1 + enterCount page.events ≤ 1 + 5 * 2 ∧
      enterCount (page.events.take 4) ≤ (page.events.take 4).count .scan * 2 ∧
      copies.value = "xx" ∧ copies.scanCount = 2 ∧ enterCount copies.events = 2 := by
  intro data page copies
  have hlongest : data.longestArray = 2 := by decide +kernel
  have hwidest : Html.widestText data = 7 := by decide +kernel
  have hlength : byteCount (sectionText "#" "a" (tagText ".")).toList = 17 := by decide +kernel
  have hrun : page.run ⟨9, 9⟩ 0 = (.ok "&lt;2", 5) := by decide +kernel
  have hitems : Stack.resolve? [.record data] "a" = some (.arr [.str "<", .str "2"]) := rfl
  obtain ⟨-, -, hpage, hbefore, hcopies⟩ := output_amplification data
  rw [hlongest, hwidest] at hpage
  rw [hlongest] at hbefore
  obtain ⟨hbytes, hbodies⟩ := hpage _ _ _ _ hrun
  rw [hlength] at hbytes
  obtain ⟨hvalue, hscans, hentered⟩ := hcopies "a" "x" _ ⟨by decide, by decide⟩
    ⟨by decide +kernel, by decide +kernel, by decide +kernel⟩ (by decide +kernel) hitems
  exact ⟨hlongest, hwidest, hrun, hbytes, hbodies, hbefore _ _ (List.take_prefix 4 _),
    hvalue.trans (by decide), hscans, hentered⟩

end Template

end Vitae
