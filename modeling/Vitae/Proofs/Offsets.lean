import Vitae.Proofs.Tokenisation
import Vitae.Template.Render

/-!
# Templates read by offsets

A template can also be read without ever copying what is left of it: by keeping an offset into it
and taking out the parts between two offsets. This is how a template is read in place, and there is
something that can go wrong: a part can only be taken out between offsets that are in order, within
the text, and between characters (`Text.slice_eq_ok_iff`), and a count of open sections can only be
lowered when it is not zero. Here such a step is checked, and ends the computation with a `Fault`
where the check fails.

`scanTag_eq` and `sectionSpan_eq` say that neither the search for the next tag nor the search for
the end of a section comes to a fault, whatever the template and the offset they begin at, and that
they find what the searches on texts find. The offsets at which a text is sliced are sums of byte
counts of its parts; so each proof names the parts of the template that the offsets lie between.
-/

namespace Vitae

/-- Why a computation on offsets cannot go on. -/
inductive Fault where
  /-- There is no part of the text between two offsets. -/
  | slice (start stop : Nat)
  /-- A count that is to be lowered is zero. -/
  | underflow
  deriving Repr, DecidableEq

namespace Text

/-! ### Parts between offsets -/

/-- The first `n` bytes of a text; nothing when these bytes end inside a character or when there are
fewer of them. -/
def takeBytes? : Nat → List Char → Option (List Char)
  | 0, _ => some []
  | _ + 1, [] => none
  | n + 1, c :: s =>
    if c.utf8Size ≤ n + 1 then (takeBytes? (n + 1 - c.utf8Size) s).map (c :: ·) else none

/-- The part of a text between two offsets, which have to be in order, within the text, and between
characters. -/
def slice (t : List Char) (start stop : Nat) : Except Fault (List Char) :=
  match if start ≤ stop then (dropBytes? start t).bind (takeBytes? (stop - start)) else none with
  | some s => .ok s
  | none => .error (.slice start stop)

theorem takeBytes?_append (s t : List Char) : takeBytes? (byteCount s) (s ++ t) = some s := by
  induction s with
  | nil => simp [takeBytes?]
  | cons c r ih =>
      have hc : 0 < c.utf8Size := Char.utf8Size_pos c
      obtain ⟨k, hk⟩ : ∃ k, c.utf8Size + byteCount r = k + 1 :=
        ⟨_, (Nat.succ_pred (by omega)).symm⟩
      rw [byteCount_cons, hk, List.cons_append, takeBytes?, if_pos (by omega),
        show k + 1 - c.utf8Size = byteCount r by omega, ih]
      rfl

/-- Whatever `takeBytes?` gives is the front of the text, of that many bytes. -/
theorem eq_append_of_takeBytes? {n : Nat} {s t : List Char} (h : takeBytes? n s = some t) :
    ∃ back, s = t ++ back ∧ byteCount t = n := by
  fun_induction takeBytes? n s generalizing t with
  | case1 s => exact ⟨s, by simp_all, by simp_all⟩
  | case2 => simp at h
  | case3 n c s hle ih =>
      obtain ⟨r, hr, rfl⟩ := Option.map_eq_some_iff.mp h
      obtain ⟨back, rfl, hn⟩ := ih hr
      exact ⟨back, rfl, by rw [byteCount_cons]; omega⟩
  | case4 => simp at h

/-- The parts of a text that can be taken out are those whose ends lie at the two offsets. -/
theorem slice_eq_ok_iff {t s : List Char} {start stop : Nat} :
    slice t start stop = .ok s ↔
      ∃ front back, t = front ++ s ++ back ∧ byteCount front = start ∧
        byteCount (front ++ s) = stop := by
  constructor
  · intro h
    unfold slice at h
    split at h
    · rename_i found hfound
      obtain rfl := Except.ok.inj h
      obtain ⟨hle, hfound⟩ := Option.ite_none_right_eq_some.mp hfound
      obtain ⟨rest, hdrop, htake⟩ := Option.bind_eq_some_iff.mp hfound
      obtain ⟨front, rfl, hfront⟩ := eq_append_of_dropBytes? hdrop
      obtain ⟨back, rfl, hs⟩ := eq_append_of_takeBytes? htake
      exact ⟨front, back, by simp, hfront, by rw [byteCount_append]; omega⟩
    · cases h
  · rintro ⟨front, back, rfl, rfl, rfl⟩
    have hle : byteCount front ≤ byteCount (front ++ s) := by simp
    have hlength : byteCount (front ++ s) - byteCount front = byteCount s := by simp
    rw [slice, if_pos hle, hlength, List.append_assoc, dropBytes?_append, Option.bind_some,
      takeBytes?_append]

/-- Whether an offset lies between two characters of a text, or at one of its ends. -/
def IsBoundary (t : List Char) (n : Nat) : Prop :=
  ∃ front rest, t = front ++ rest ∧ byteCount front = n

theorem dropBytes?_eq_none {t : List Char} {n : Nat} (h : ¬ IsBoundary t n) :
    dropBytes? n t = none := by
  rw [Option.eq_none_iff_forall_ne_some]
  intro rest hrest
  obtain ⟨front, ht, hn⟩ := eq_append_of_dropBytes? hrest
  exact h ⟨front, rest, ht, hn⟩

theorem eq_nil_of_byteCount_eq_zero {s : List Char} (h : byteCount s = 0) : s = [] := by
  cases s with
  | nil => rfl
  | cons c s =>
      have := Char.utf8Size_pos c
      rw [byteCount_cons] at h
      omega

/-- There is a part between two offsets exactly when they are in order and both are boundaries. -/
theorem exists_slice_iff {t : List Char} {start stop : Nat} :
    (∃ s, slice t start stop = .ok s) ↔ start ≤ stop ∧ IsBoundary t start ∧ IsBoundary t stop := by
  constructor
  · rintro ⟨s, h⟩
    obtain ⟨front, back, rfl, rfl, rfl⟩ := slice_eq_ok_iff.mp h
    exact ⟨by simp, ⟨front, s ++ back, by simp, rfl⟩, ⟨front ++ s, back, rfl, rfl⟩⟩
  · rintro ⟨hle, ⟨front, rest, ht, rfl⟩, front', rest', ht', rfl⟩
    have hprefix : front <+: front' := by
      rcases List.prefix_or_prefix_of_prefix ⟨rest, ht.symm⟩ ⟨rest', ht'.symm⟩ with h | ⟨s, rfl⟩
      · exact h
      · rw [byteCount_append] at hle
        have hs : s = [] := eq_nil_of_byteCount_eq_zero (by omega)
        simp [hs]
    obtain ⟨s, rfl⟩ := hprefix
    exact ⟨s, slice_eq_ok_iff.mpr ⟨front, rest', ht', rfl, rfl⟩⟩

theorem slice_append (front s back : List Char) :
    slice (front ++ s ++ back) (byteCount front) (byteCount (front ++ s)) = .ok s :=
  slice_eq_ok_iff.mpr ⟨front, back, rfl, rfl, rfl⟩

theorem slice_take (front t : List Char) (n : Nat) :
    slice (front ++ t) (byteCount front) (byteCount front + byteCount (t.take n)) =
      .ok (t.take n) :=
  slice_eq_ok_iff.mpr ⟨front, t.drop n, by simp, rfl, byteCount_append ..⟩

/-- A part of a text behind its beginning is smaller than the text. -/
theorem byteCount_lt_of_slice {t s : List Char} {start stop : Nat} (h : slice t start stop = .ok s)
    (hstart : 0 < start) : byteCount s < byteCount t := by
  obtain ⟨front, back, rfl, hfront, -⟩ := slice_eq_ok_iff.mp h
  simp only [byteCount_append]
  omega

end Text

namespace Template

open Text (byteCount slice)

theorem byteCount_braces {d : Char} (hd : d.utf8Size = 1) : byteCount [d, d] = 2 := by
  simp [hd]

/-! ### The next tag -/

/-- How far into a text the first pair of a character stands. -/
def findPair? (d : Char) (t : List Char) : Option Nat :=
  (splitPair d t).map fun parts => byteCount parts.1

/-- The next tag at or after an offset, sought in place. -/
def scanTag (template : List Char) (origin : Nat) : Except Fault (Option PlacedTag) :=
  match Text.dropBytes? origin template with
  | none => .ok none
  | some rest =>
    match findPair? '{' rest with
    | none => .ok none
    | some before => do
      let start := origin + before
      let innerStart := start + 2
      match findPair? '}' (← slice template innerStart (byteCount template)) with
      | none => return none
      | some inside =>
        let innerStop := innerStart + inside
        let inner ← slice template innerStart innerStop
        return some ⟨Tag.ofInner inner, start, innerStop + 2⟩

/-- The search for a tag never comes to a fault. -/
theorem scanTag_eq (template : List Char) (origin : Nat) :
    scanTag template origin = .ok (tagFrom? template origin) := by
  unfold scanTag tagFrom?
  cases hrest : Text.dropBytes? origin template with
  | none => rfl
  | some rest =>
      obtain ⟨front, rfl, rfl⟩ := Text.eq_append_of_dropBytes? hrest
      dsimp only [cut, findPair?]
      cases hopen : splitPair '{' rest with
      | none => rfl
      | some parts =>
          obtain ⟨before, opened⟩ := parts
          -- the braces end where what stands before the content of the tag ends
          let shown := front ++ before ++ ['{', '{']
          have hshown : byteCount shown = byteCount front + byteCount before + 2 := by
            rw [Text.byteCount_append, Text.byteCount_append, byteCount_braces rfl]
          have htemplate : front ++ rest = shown ++ opened := by
            simp [shown, eq_of_splitPair hopen]
          have hopened : slice (front ++ rest) (byteCount front + byteCount before + 2)
              (byteCount (front ++ rest)) = .ok opened := by
            rw [htemplate, ← hshown]
            simpa using Text.slice_append shown opened []
          dsimp only [Option.map_some]
          rw [hopened]
          dsimp only [bind, Except.bind]
          cases hclose : splitPair '}' opened with
          | none => rfl
          | some parts =>
              obtain ⟨inner, after⟩ := parts
              have hinner : slice (front ++ rest) (byteCount front + byteCount before + 2)
                  (byteCount front + byteCount before + 2 + byteCount inner) = .ok inner := by
                rw [htemplate, eq_of_splitPair hclose, ← hshown, ← Text.byteCount_append,
                  ← List.append_assoc]
                exact Text.slice_append shown inner ('}' :: '}' :: after)
              dsimp only [Option.map_some]
              rw [hinner]
              simp only [Cut.placed, Cut.tag, pure, Except.pure]
              congr 3
              omega

theorem scanTag_append (front rest : List Char) :
    scanTag (front ++ rest) (byteCount front) =
      .ok ((cut rest).map (·.placed (byteCount front))) := by
  rw [scanTag_eq, tagFrom?_append]

/-- Inverting the search: the text before the offset, and the cut of the text behind it. -/
theorem tagFrom?_eq_some {template : List Char} {origin : Nat} {placed : PlacedTag}
    (h : tagFrom? template origin = some placed) :
    ∃ front rest c, template = front ++ rest ∧ byteCount front = origin ∧ cut rest = some c ∧
      placed = c.placed origin := by
  unfold tagFrom? at h
  split at h
  · cases h
  · rename_i rest hrest
    obtain ⟨front, rfl, hfront⟩ := Text.eq_append_of_dropBytes? hrest
    obtain ⟨c, hc, rfl⟩ := Option.map_eq_some_iff.mp h
    exact ⟨front, rest, c, rfl, hfront, hc, rfl⟩

/-- A tag ends behind its four braces, and within the template. -/
theorem bounds_of_scanTag {template : List Char} {origin : Nat} {placed : PlacedTag}
    (h : scanTag template origin = .ok (some placed)) :
    origin + 4 ≤ placed.stop ∧ placed.stop ≤ byteCount template := by
  rw [scanTag_eq] at h
  obtain ⟨front, rest, c, rfl, rfl, hc, rfl⟩ := tagFrom?_eq_some (Except.ok.inj h)
  refine ⟨by simp only [Cut.placed]; omega, ?_⟩
  conv => rhs; rw [eq_whole_append hc, ← List.append_assoc, Text.byteCount_append]
  rw [Cut.stop_placed, ← Text.byteCount_append]
  exact Nat.le_add_right ..

/-! ### Computations that can come to a fault -/

/-- A metered computation with checked steps. -/
abbrev Checked := ExceptT Fault Metered

namespace Checked

variable {α β : Type}

/-- One more tag is looked at before the computation goes on. -/
def scan (next : Unit → Checked α) : Checked α := ExceptT.mk (.scan fun _ => (next ()).run)

/-- A section body at this depth is entered before the computation goes on. -/
def enter (depth : Nat) (next : Unit → Checked α) : Checked α :=
  ExceptT.mk (.enter depth fun _ => (next ()).run)

/-- A metered computation, which has no steps to check. -/
def safe (x : Metered α) : Checked α := ExceptT.lift x

theorem safe_scan (next : Unit → Metered α) :
    safe (.scan next) = scan fun _ => safe (next ()) := rfl

theorem safe_enter (depth : Nat) (next : Unit → Metered α) :
    safe (.enter depth next) = enter depth fun _ => safe (next ()) := rfl

theorem safe_bind (x : Metered α) (f : α → Metered β) :
    (safe x >>= fun a => safe (f a)) = safe (x >>= f) := by
  refine ExceptT.ext ?_
  simp [safe, ExceptT.run_bind]

theorem map_scan (f : α → β) (next : Unit → Checked α) :
    f <$> scan next = scan fun _ => f <$> next () := rfl

theorem map_safe (f : α → β) (x : Metered α) : f <$> safe x = safe (f <$> x) := by
  refine ExceptT.ext ?_
  simp [safe, Except.map]

/-- Running a computation that has no steps to check. -/
theorem run_safe (limits : Limits) (x : Metered α) (used : Nat) :
    (safe x).run.run limits used = ((x.run limits used).1.map .ok, (x.run limits used).2) := by
  have hlift : (safe x).run = x.bind fun a => .done (.ok a) := by
    rw [safe, ExceptT.run_lift, Metered.map_eq_bind]
  rw [hlift, Metered.run_bind]
  rcases x.run limits used with ⟨_ | _, _⟩ <;> rfl

end Checked

/-! ### The end of a section -/

/-- The place of a section whose opening tag ends at the offset `origin`. -/
structure Span (origin : Nat) extends SectionSpan where
  start_eq : start = origin
  lt_next : origin < next

/-- Looks from an offset on for the close tag of a section called `name`, in place. The section's
opening tag ends at `origin`, and `depth` sections of that name stand open, it included. -/
def scanSection (template : List Char) (name : String) {origin : Nat} (depth cursor : Nat)
    (hcursor : origin ≤ cursor) : Checked (Option (Span origin)) :=
  match h : scanTag template cursor with
  | .error fault => throw fault
  | .ok none => return none
  | .ok (some placed) => .scan fun _ =>
    have hstop : origin < placed.stop := by
      have := bounds_of_scanTag h
      omega
    let further (depth : Nat) := scanSection template name depth placed.stop (Nat.le_of_lt hstop)
    if placed.tag.opens? = some name then further (depth + 1)
    else if placed.tag = .sectionClose name then
      if depth = 0 then throw .underflow
      else if depth - 1 = 0 then return some ⟨⟨origin, placed.start, placed.stop⟩, rfl, hstop⟩
      else further (depth - 1)
    else further depth
termination_by byteCount template - cursor
decreasing_by
  have := bounds_of_scanTag h
  omega

section Search

variable {template : List Char} {name : String} {origin depth cursor : Nat}

theorem scanSection_of_none (h : tagFrom? template cursor = none) (hcursor : origin ≤ cursor) :
    scanSection template name depth cursor hcursor = pure none := by
  have hscan := h ▸ scanTag_eq template cursor
  rw [scanSection]
  split
  · simp_all
  · rfl
  · simp_all

/-- The search in place at a tag. -/
theorem scanSection_of_some {placed : PlacedTag} (h : tagFrom? template cursor = some placed)
    (hcursor : origin ≤ cursor) (hstop : origin < placed.stop) :
    scanSection template name depth cursor hcursor = .scan fun _ =>
      if placed.tag.opens? = some name then
        scanSection template name (depth + 1) placed.stop (Nat.le_of_lt hstop)
      else if placed.tag = .sectionClose name then
        if depth = 0 then throw .underflow
        else if depth - 1 = 0 then
          pure (some ⟨⟨origin, placed.start, placed.stop⟩, rfl, hstop⟩)
        else scanSection template name (depth - 1) placed.stop (Nat.le_of_lt hstop)
      else scanSection template name depth placed.stop (Nat.le_of_lt hstop) := by
  have hscan := h ▸ scanTag_eq template cursor
  rw [scanSection]
  split
  · simp_all
  · simp_all
  · rename_i placed' h'
    obtain rfl : placed = placed' := by simpa [hscan] using h'
    rfl

/-- The place of the close tag, as the search on texts gives it. -/
theorem placed_close {front passed t : List Char} {c : Cut} (h : cut t = some c)
    (horigin : origin = byteCount front) (hpassed : cursor = byteCount (front ++ passed)) :
    (⟨passed.length + c.before.length, passed.length + c.stop⟩ : SectionEnd).placed origin
        (passed ++ t) = ⟨origin, (c.placed cursor).start, (c.placed cursor).stop⟩ := by
  have hbody : t.take c.before.length = c.before := by
    rw [eq_of_cut h]
    exact List.take_left
  have hstop : t.take c.stop = c.whole := by
    conv => lhs; rw [eq_whole_append h, ← c.length_whole]
    exact List.take_left
  rw [Text.byteCount_append, ← horigin] at hpassed
  simp only [SectionEnd.placed, List.take_length_add_append, hbody, hstop, Text.byteCount_append,
    SectionSpan.mk.injEq, true_and]
  constructor
  · simp only [Cut.placed]
    omega
  · rw [Cut.stop_placed]
    omega

/-- The search in place comes to no fault, and finds what the search on texts finds: when `passed`
was passed over behind the opening tag and `nested` sections stand open inside the section, they
both go on alike. The section itself is open throughout, so the count is never zero. -/
theorem map_scanSection (name : String) {front passed t : List Char}
    (htemplate : template = front ++ passed ++ t) (horigin : origin = byteCount front)
    (hpassed : cursor = byteCount (front ++ passed)) (nested : Nat)
    (hcursor : origin ≤ cursor) :
    Option.map Span.toSectionSpan <$> scanSection template name (nested + 1) cursor hcursor =
      .safe (Option.map (·.placed origin (passed ++ t)) <$>
        sectionEndFrom name nested passed.length t) := by
  induction ht : t.length using Nat.strongRecOn generalizing passed t nested cursor with
  | ind n ih =>
  subst ht
  have htag : tagFrom? template cursor = (cut t).map (·.placed cursor) := by
    rw [htemplate, hpassed, tagFrom?_append]
  cases h : cut t with
  | none =>
      rw [h] at htag
      rw [scanSection_of_none htag, sectionEndFrom_of_none h]
      rfl
  | some c =>
      rw [h] at htag
      have hstop : origin < (c.placed cursor).stop := by
        simp only [Cut.placed]
        omega
      have hwhole := eq_whole_append h
      have hnext : template = front ++ (passed ++ c.whole) ++ c.after := by
        rw [htemplate, hwhole]
        simp
      have hcount : (c.placed cursor).stop = byteCount (front ++ (passed ++ c.whole)) := by
        rw [Cut.stop_placed, hpassed, ← List.append_assoc, Text.byteCount_append (front ++ _)]
      have further (nested : Nat) :=
        ih _ (length_after_lt h) hnext hcount nested (Nat.le_of_lt hstop) rfl
      simp only [List.length_append, Cut.length_whole, List.append_assoc, ← hwhole] at further
      rw [scanSection_of_some htag hcursor hstop, sectionEndFrom_of_cut h, Checked.map_scan]
      show _ = Checked.scan fun _ => .safe (_ <$> _)
      congr 1
      funext _
      have htag : (c.placed cursor).tag = c.tag := rfl
      rw [htag]
      split
      · exact further (nested + 1)
      · split
        · cases nested with
          | zero =>
              have hfound := placed_close h horigin hpassed
              exact congrArg (fun span => (pure (some span) : Checked (Option SectionSpan)))
                hfound.symm
          | succ nested => exact further nested
        · exact further nested

end Search

/-- The place of the section called `name` whose opening tag ends at the offset `origin`, sought in
place. -/
def sectionSpan (template : List Char) (name : String) (origin : Nat) :
    Checked (Option SectionSpan) :=
  Option.map Span.toSectionSpan <$> scanSection template name 1 origin (Nat.le_refl origin)

/-- The search for the end of a section never comes to a fault. -/
theorem sectionSpan_eq (template : List Char) (name : String) (origin : Nat) :
    sectionSpan template name origin = .safe (sectionAt template origin name) := by
  unfold sectionSpan sectionAt
  cases hrest : Text.dropBytes? origin template with
  | none =>
      have hnone : tagFrom? template origin = none := by
        rw [tagFrom?, hrest]
      rw [scanSection_of_none hnone]
      rfl
  | some rest =>
      obtain ⟨front, rfl, rfl⟩ := Text.eq_append_of_dropBytes? hrest
      have htemplate : front ++ rest = front ++ [] ++ rest := by simp
      have hsearch := map_scanSection name htemplate rfl (by simp) 0 (Nat.le_refl _)
      rw [hsearch, map_eq_pure_bind]
      rfl

end Template

end Vitae
