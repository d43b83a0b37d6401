import Mathlib.Tactic.Ring
import Vitae.Proofs.FreeRun
import Vitae.Proofs.Hereditary
import Vitae.Proofs.TokenRender
import Vitae.Proofs.Tokenisation

/-!
# How many tags a render looks at

A render looks at every tag of its template at least once: a tag that the scan does not come to lies
behind an opening tag, and was looked at when the end of that section was sought. It may look at a
tag more often, once for each section around it and once more for each unclosed section before it,
and again for each item of a list. Without longer lists the number of scans is at most a triangular
number: `triangle_add_le` says that the tags of a body and those behind the section together cost no
more than they would in one row, which leaves enough for the search that found the close tag.

Both bounds are proved on tokens (`scanCount_closed` is the cost of a section) and read off the run
of the template: `scans_between`.
-/

namespace Vitae

/-! ### Values with short lists -/

/-- Whether no list within a value has more than `most` items. -/
inductive Json.ListsWithin (most : Nat) : Json → Prop where
  | null : ListsWithin most .null
  | bool (b : Bool) : ListsWithin most (.bool b)
  | num (n : Number) : ListsWithin most (.num n)
  | str (s : String) : ListsWithin most (.str s)
  | arr {items : List Json} (hlength : items.length ≤ most)
      (h : ∀ item ∈ items, ListsWithin most item) : ListsWithin most (.arr items)
  | obj {fields : Fields} (h : ∀ field ∈ fields, ListsWithin most field.2) :
      ListsWithin most (.obj fields)

theorem Json.hereditary_listsWithin (most : Nat) : Hereditary (ListsWithin most) where
  items items h := by
    cases h with
    | arr _ h => exact h
  fields fields h := by
    cases h with
    | obj h => exact h

theorem Json.ListsWithin.length_le {most : Nat} {items : List Json}
    (h : ListsWithin most (.arr items)) : items.length ≤ most := by
  cases h with
  | arr hlength _ => exact hlength

namespace Template

open Json (Hereditary ListsWithin hereditary_listsWithin)

theorem length_ite_le {c : Prop} [Decidable c] (stack : Stack) :
    (if c then [stack] else []).length ≤ 1 := by
  split <;> simp

/-- A section has no more contexts than the lists that can be named have items, or one. -/
theorem length_contexts_le {property : Json → Prop} (hproperty : Hereditary property) {most : Nat}
    (hlists : ∀ items, property (.arr items) → items.length ≤ most) {stack : Stack}
    (h : stack.All property) (tag : Tag) : (tag.contexts stack).length ≤ max 1 most := by
  cases tag with
  | sectionOpen name =>
      simp only [Tag.contexts, sectionContexts]
      split
      · rename_i items hitems
        have hlength := hlists items (h.resolve? hproperty hitems)
        rw [List.length_map]
        exact Nat.le_trans hlength (Nat.le_max_right ..)
      · split
        · exact Nat.le_max_left ..
        · exact Nat.le_trans (length_ite_le stack) (Nat.le_max_left ..)
      · exact Nat.le_trans (length_ite_le stack) (Nat.le_max_left ..)
  | invertedOpen name =>
      simp only [Tag.contexts, invertedContexts]
      split
      · exact Nat.zero_le _
      · exact Nat.le_max_left ..
  | _ => exact Nat.zero_le _

/-! ### Counting scans -/

namespace Metered

variable {α β : Type}

/-- The number of tags that a computation looks at when nothing stops it. -/
def scanCount (x : Metered α) : Nat := x.events.count .scan

@[simp] theorem scanCount_done (a : α) : (done a).scanCount = 0 := rfl

@[simp] theorem scanCount_scan (next : Unit → Metered α) :
    (scan next).scanCount = (next ()).scanCount + 1 := by
  simp [scanCount]

@[simp] theorem scanCount_enter (depth : Nat) (next : Unit → Metered α) :
    (enter depth next).scanCount = (next ()).scanCount := by
  simp [scanCount]

@[simp] theorem scanCount_bind (x : Metered α) (f : α → Metered β) :
    (x >>= f).scanCount = x.scanCount + (f x.value).scanCount := by
  simp [scanCount]

@[simp] theorem scanCount_scans (n : Nat) (x : Metered α) :
    (scans n x).scanCount = n + x.scanCount := by
  simp [scanCount]

/-- A run that ends well has looked at just the tags of the computation. -/
theorem eq_add_scanCount_of_run {limits : Limits} {x : Metered α} {used now : Nat} {a : α}
    (h : x.run limits used = (.ok a, now)) : now = used + x.scanCount := by
  induction x generalizing used with
  | done b =>
      obtain ⟨-, rfl⟩ := Prod.mk.inj h
      rfl
  | scan next ih =>
      simp only [run] at h
      split at h
      · cases (Prod.mk.inj h).1
      · rw [ih () h, scanCount_scan]
        omega
  | enter depth next ih =>
      simp only [run] at h
      split at h
      · cases (Prod.mk.inj h).1
      · rw [ih () h, scanCount_enter]

end Metered

/-! ### Tags among tokens -/

/-- A template has as many tags among its tokens as scanning finds. -/
theorem tagCount_tokens (origin : Nat) (t : List Char) :
    tagCount (tokens t) = (tagsFrom origin t).length := by
  induction ht : t.length using Nat.strongRecOn generalizing origin t with
  | ind n ih =>
  subst ht
  cases h : cut t with
  | none =>
      rw [tokens_of_none h, tagsFrom_of_none h]
      rfl
  | some c =>
      rw [tokens_of_cut h, tagsFrom_of_cut h, List.length_cons, ← ih _ (length_after_lt h) _ _ rfl]
      rfl

/-- A section ends at a close tag of its name. -/
theorem getElem?_of_closeAt? {name : String} {nested i : Nat} {ts : List Token}
    (h : closeAt? name nested ts = some i) : ts[i]? = some (.tag (.sectionClose name)) := by
  induction ts generalizing nested i with
  | nil => cases h
  | cons token rest ih =>
      have further {nested : Nat} (h : (closeAt? name nested rest).map (· + 1) = some i) :
          (token :: rest)[i]? = some (.tag (.sectionClose name)) := by
        obtain ⟨j, hj, rfl⟩ := Option.map_eq_some_iff.mp h
        simpa using ih hj
      cases token with
      | text s => exact further h
      | tag tag =>
          simp only [closeAt?] at h
          split at h
          · exact further h
          · split at h
            · rename_i hclose
              cases nested with
              | zero =>
                  obtain rfl := Option.some.inj h
                  rw [hclose]
                  rfl
              | succ nested => exact further h
            · exact further h

/-- The tags of a section are those of its body and the close tag. -/
theorem tagCount_take_of_closeAt? {name : String} {nested i : Nat} {ts : List Token}
    (h : closeAt? name nested ts = some i) :
    tagCount (ts.take (i + 1)) = tagCount (ts.take i) + 1 := by
  rw [List.take_add_one, getElem?_of_closeAt? h, tagCount_append]
  rfl

theorem tagCount_take_add_drop (i : Nat) (ts : List Token) :
    tagCount (ts.take i) + tagCount (ts.drop i) = tagCount ts := by
  rw [← tagCount_append, List.take_append_drop]

/-! ### The cost of rendering tokens -/

/-- The body of a section in one context after another. -/
def renderTokensEach (depth : Nat) (body : List Token) (contexts : List Stack) (out : String) :
    Metered String :=
  contexts.foldlM (fun out context => .enter depth fun _ => renderTokens depth context out body) out

/-- Where a body takes no more than a number of scans in each of its contexts, all of them take no
more than so many times this number. -/
theorem scanCount_renderTokensEach_le {depth most : Nat} {body : List Token} {contexts : List Stack}
    (h : ∀ context ∈ contexts, ∀ out, (renderTokens depth context out body).scanCount ≤ most)
    (out : String) :
    (renderTokensEach depth body contexts out).scanCount ≤ contexts.length * most := by
  induction contexts generalizing out with
  | nil => exact Nat.zero_le _
  | cons context rest ih =>
      have hfirst := h context List.mem_cons_self out
      have hrest := ih (fun context hmem => h context (List.mem_cons_of_mem _ hmem))
        (renderTokens depth context out body).value
      rw [renderTokensEach] at hrest ⊢
      simp only [List.foldlM_cons, Metered.scanCount_bind, Metered.scanCount_enter,
        Metered.value_enter, List.length_cons, Nat.succ_mul]
      omega

section

variable {depth : Nat} {stack : Stack} {out : String} {tag : Tag} {name : String} {i : Nat}
  {rest : List Token}

theorem scanCount_plain (h : tag.opens? = none) :
    (renderTokens depth stack out (.tag tag :: rest)).scanCount =
      (renderTokens depth stack (out ++ tag.shown stack) rest).scanCount + 1 := by
  simp only [renderTokens, h, Metered.scanCount_scan]

theorem scanCount_unclosed (h : tag.opens? = some name) (hclose : closeAt? name 0 rest = none) :
    (renderTokens depth stack out (.tag tag :: rest)).scanCount =
      tagCount rest + (renderTokens depth stack out rest).scanCount + 1 := by
  simp only [renderTokens, h, hclose, lookahead, Metered.scanCount_scan, Metered.scanCount_scans]

/-- A closed section costs the tags up to its close tag, its bodies, and what follows. -/
theorem scanCount_closed (h : tag.opens? = some name) (hclose : closeAt? name 0 rest = some i) :
    let bodies := renderTokensEach (depth + 1) (rest.take i) (tag.contexts stack) out
    (renderTokens depth stack out (.tag tag :: rest)).scanCount =
      tagCount (rest.take i) + 2 + bodies.scanCount +
        (renderTokens depth stack bodies.value (rest.drop (i + 1))).scanCount := by
  simp only [renderTokens, h, hclose, lookahead, Metered.scanCount_scan, Metered.scanCount_scans,
    Metered.scanCount_bind, tagCount_take_of_closeAt? hclose, renderTokensEach]
  omega

end

/-- Every tag is looked at. -/
theorem tagCount_le_scanCount (depth : Nat) (stack : Stack) (out : String) (ts : List Token) :
    tagCount ts ≤ (renderTokens depth stack out ts).scanCount := by
  induction hn : ts.length using Nat.strongRecOn generalizing depth stack out ts with
  | ind n ih =>
  subst hn
  cases ts with
  | nil => exact Nat.zero_le _
  | cons token rest =>
      have hrest (out : String) := ih rest.length (Nat.lt_succ_self _) depth stack out rest rfl
      cases token with
      | text s =>
          rw [renderTokens]
          exact hrest _
      | tag tag =>
          show tagCount rest + 1 ≤ _
          cases htag : tag.opens? with
          | none =>
              rw [scanCount_plain htag]
              exact Nat.succ_le_succ (hrest _)
          | some name =>
              cases hclose : closeAt? name 0 rest with
              | none =>
                  rw [scanCount_unclosed htag hclose]
                  omega
              | some i =>
                  have hdrop (out : String) :=
                    ih _ (length_drop_lt (i + 1) (.tag tag) rest) depth stack out _ rfl
                  have hsplit := tagCount_take_add_drop (i + 1) rest
                  rw [tagCount_take_of_closeAt? hclose] at hsplit
                  rw [scanCount_closed htag hclose]
                  have := hdrop
                    (renderTokensEach (depth + 1) (rest.take i) (tag.contexts stack) out).value
                  omega

/-! ### Triangular numbers -/

/-- The sum of the first `n` numbers. -/
def triangle : Nat → Nat
  | 0 => 0
  | n + 1 => triangle n + (n + 1)

theorem triangle_eq (n : Nat) : triangle n = n * (n + 1) / 2 := by
  have htwice : n * (n + 1) = triangle n * 2 := by
    induction n with
    | zero => rfl
    | succ n ih =>
        rw [triangle, Nat.add_mul (triangle n), ← ih]
        ring
  rw [htwice, Nat.mul_div_cancel _ (by decide)]

/-- Two rows cost no more than one row of both. -/
theorem triangle_add_le (m n : Nat) : triangle m + triangle n ≤ triangle (m + n) := by
  induction n with
  | zero => exact Nat.le_refl _
  | succ n ih =>
      rw [← Nat.add_assoc, triangle, triangle]
      omega

/-- Without longer lists than of one item, the tags are looked at no more often than in a row of
unclosed sections. -/
theorem scanCount_le_triangle {stack : Stack} (h : stack.All (ListsWithin 1)) (depth : Nat)
    (out : String) (ts : List Token) :
    (renderTokens depth stack out ts).scanCount ≤ triangle (tagCount ts) := by
  induction hn : ts.length using Nat.strongRecOn generalizing depth stack out ts with
  | ind n ih =>
  subst hn
  cases ts with
  | nil =>
      rw [renderTokens]
      exact Nat.zero_le _
  | cons token rest =>
      have hrest (out : String) := ih rest.length (Nat.lt_succ_self _) h depth out rest rfl
      cases token with
      | text s =>
          rw [renderTokens]
          exact hrest _
      | tag tag =>
          show _ ≤ triangle (tagCount rest) + (tagCount rest + 1)
          cases htag : tag.opens? with
          | none =>
              rw [scanCount_plain htag]
              have := hrest (out ++ tag.shown stack)
              omega
          | some name =>
              cases hclose : closeAt? name 0 rest with
              | none =>
                  rw [scanCount_unclosed htag hclose]
                  have := hrest out
                  omega
              | some i =>
                  have hdrop (out : String) :=
                    ih _ (length_drop_lt (i + 1) (.tag tag) rest) h depth out _ rfl
                  -- there is one context at most, and it holds no longer lists than the stack
                  have hbodies : (renderTokensEach (depth + 1) (rest.take i) (tag.contexts stack)
                      out).scanCount ≤ _ :=
                    scanCount_renderTokensEach_le (fun context hmem out =>
                      ih _ (length_take_lt i (.tag tag) rest)
                        (h.of_mem_contexts (hereditary_listsWithin 1) hmem) (depth + 1) out _ rfl)
                      out
                  have hcontexts := Nat.mul_le_mul_right (triangle (tagCount (rest.take i)))
                    (length_contexts_le (hereditary_listsWithin 1) (fun _ h => h.length_le) h tag)
                  rw [Nat.max_self, Nat.one_mul] at hcontexts
                  have hsplit := tagCount_take_add_drop (i + 1) rest
                  rw [tagCount_take_of_closeAt? hclose] at hsplit
                  have hsum := triangle_add_le (tagCount (rest.take i))
                    (tagCount (rest.drop (i + 1)))
                  have hrow : triangle (tagCount rest) =
                      triangle (tagCount (rest.take i) + tagCount (rest.drop (i + 1))) +
                        tagCount rest := by
                    rw [← hsplit, Nat.add_right_comm, triangle]
                  rw [scanCount_closed htag hclose]
                  have := hdrop
                    (renderTokensEach (depth + 1) (rest.take i) (tag.contexts stack) out).value
                  omega

/-! ### Unclosed sections -/

/-- A row of opening tags, none of which is closed. -/
def unclosedRow (n : Nat) : List Char := (List.replicate n (tagText "#a").toList).flatten

theorem cut_unclosedRow (n : Nat) :
    cut (unclosedRow (n + 1)) = some ⟨[], ['#', 'a'], unclosedRow n⟩ := by
  rw [unclosedRow, List.replicate_succ, List.flatten_cons]
  exact cut_tagText (by decide) _

theorem tag_unclosedRow (n : Nat) :
    (Cut.mk [] ['#', 'a'] (unclosedRow n)).tag = .sectionOpen "a" := by
  show Tag.ofInner ['#', 'a'] = _
  decide

theorem tokens_unclosedRow (n : Nat) :
    tokens (unclosedRow (n + 1)) =
      .text [] :: .tag (.sectionOpen "a") :: tokens (unclosedRow n) := by
  rw [tokens_of_cut (cut_unclosedRow n), tag_unclosedRow]

theorem map_tag_unclosedRow (origin n : Nat) :
    (tagsFrom origin (unclosedRow n)).map (·.tag) = List.replicate n (.sectionOpen "a") := by
  induction n generalizing origin with
  | zero =>
      rw [tagsFrom_of_none (by decide)]
      rfl
  | succ n ih =>
      rw [tagsFrom_of_cut (cut_unclosedRow n), List.map_cons, ih, List.replicate_succ]
      exact congrArg (· :: _) (tag_unclosedRow n)

theorem tagCount_unclosedRow (n : Nat) : tagCount (tokens (unclosedRow n)) = n := by
  rw [tagCount_tokens 0, ← List.length_map (·.tag), map_tag_unclosedRow, List.length_replicate]

theorem closeAt?_unclosedRow (nested n : Nat) :
    closeAt? "a" nested (tokens (unclosedRow n)) = none := by
  induction n generalizing nested with
  | zero =>
      rw [tokens_of_none (by decide)]
      rfl
  | succ n ih =>
      rw [tokens_unclosedRow]
      simp [closeAt?, Tag.opens?, ih]

/-- Each tag of the row is looked at by the scan and by the searches for the ends of all sections
before it. -/
theorem scanCount_unclosedRow (depth : Nat) (stack : Stack) (out : String) (n : Nat) :
    (renderTokens depth stack out (tokens (unclosedRow n))).scanCount = triangle n := by
  induction n generalizing out with
  | zero =>
      rw [tokens_of_none (by decide), renderTokens, renderTokens]
      rfl
  | succ n ih =>
      rw [tokens_unclosedRow, renderTokens, scanCount_unclosed rfl (closeAt?_unclosedRow 0 n), ih,
        tagCount_unclosedRow, triangle]
      omega

/-! ### The bounds of a render -/

theorem Renders.count_scan {depth : Nat} {stack : Stack} {t : List Char} {html : String}
    {events : List Event} (h : Renders depth stack t html events) :
    events.count .scan = (renderTokens depth stack "" (tokens t)).scanCount := by
  rw [← renderFrom_eq_renderTokens, Metered.scanCount, (h.value_events "").2]

/-- **The number of scans is at least linear and at most triangular.** A template with `n` tags is
rendered with `n` scans or more, in any context, and not at all where so many are not allowed. In a
context without longer lists than of one item it is rendered with no more than `n * (n + 1) / 2`
scans, and never goes over a limit of so many. There are templates, rows of unclosed opening tags,
that take exactly so many in every context. -/
theorem scans_between (stack : Stack) (template : String) :
    let n := (allTags template.toList).length
    (∃ html events, Renders 0 stack template.toList html events ∧ n ≤ events.count .scan ∧
      (stack.All (ListsWithin 1) → events.count .scan ≤ n * (n + 1) / 2)) ∧
      (∀ (limits : Limits) (html : String) (scans : Nat),
        (renderIn stack template).run limits 0 = (.ok html, scans) → n ≤ scans) ∧
      (∀ limits : Limits, limits.maxTagScans < n →
        ∀ html, ((renderIn stack template).run limits 0).1 ≠ .ok html) ∧
      (stack.All (ListsWithin 1) → ∀ limits : Limits, n * (n + 1) / 2 ≤ limits.maxTagScans →
        ∀ limit, ((renderIn stack template).run limits 0).1 ≠ .error (.tagScans limit)) ∧
      ∀ n, ∃ row : String, (allTags row.toList).map (·.tag) = List.replicate n (.sectionOpen "a") ∧
        ∀ stack html events, Renders 0 stack row.toList html events →
          events.count .scan = n * (n + 1) / 2 := by
  intro n
  obtain ⟨html, events, hrun⟩ := exists_renders 0 stack template.toList
  have hevents : (renderIn stack template).events = events := (hrun.value_events "").2
  have hcount := hrun.count_scan
  have hleast : n ≤ events.count .scan := by
    rw [hcount, show n = _ from (tagCount_tokens 0 template.toList).symm]
    exact tagCount_le_scanCount ..
  have hmost (h : stack.All (ListsWithin 1)) : events.count .scan ≤ n * (n + 1) / 2 := by
    rw [hcount, ← triangle_eq, show n = _ from (tagCount_tokens 0 template.toList).symm]
    exact scanCount_le_triangle h ..
  refine ⟨⟨html, events, hrun, hleast, hmost⟩, ?_, ?_, ?_, ?_⟩
  · intro limits out scans hok
    have hscans := Metered.eq_add_scanCount_of_run hok
    rw [Metered.scanCount, hevents] at hscans
    omega
  · intro limits hless out hok
    obtain ⟨hallow, -⟩ := Metered.run_eq_ok_iff.mp hok
    rw [hevents, Limits.allow_zero_iff] at hallow
    have := hallow.1
    omega
  · intro h limits hlimit limit herror
    rw [Metered.run_eq_error_iff, hevents, Limits.breach?_zero_iff] at herror
    cases herror with
    | scan hsplit hbefore hfull =>
        -- the scan that breaks the limit is one more than the run has
        have hmore := congrArg (List.count .scan) hsplit
        rw [List.count_append, List.count_cons_self] at hmore
        have := hmost h
        omega
  · intro n
    refine ⟨String.ofList (unclosedRow n), ?_, ?_⟩
    · rw [String.toList_ofList]
      exact map_tag_unclosedRow 0 n
    · intro stack html events hrow
      rw [hrow.count_scan, String.toList_ofList, scanCount_unclosedRow, triangle_eq]

/-- A section around another one takes four scans and two more, within the ten that four tags may
take, and more than three. -/
theorem scans_between_nested :
    let template := tagText "#a" ++ tagText "#b" ++ tagText "/b" ++ tagText "/a"
    let stack : Stack := [.record (.obj [("a", .arr [.bool true])])]
    stack.All (ListsWithin 1) ∧
      (renderIn stack template).run ⟨10, 5⟩ 0 = (.ok "", 6) ∧ 4 ≤ 6 ∧
      (∀ html, ((renderIn stack template).run ⟨3, 5⟩ 0).1 ≠ .ok html) ∧
      ∀ limit, ((renderIn stack template).run ⟨10, 0⟩ 0).1 ≠ .error (.tagScans limit) := by
  intro template stack
  have hshort : stack.All (ListsWithin 1) := by
    intro frame hframe
    obtain rfl := List.mem_singleton.mp hframe
    refine .obj ?_
    intro field hfield
    obtain rfl := List.mem_singleton.mp hfield
    refine .arr (Nat.le_refl 1) ?_
    intro item hitem
    obtain rfl := List.mem_singleton.mp hitem
    exact .bool true
  have hlength : (allTags template.toList).length = 4 := by decide +kernel
  have hrun : (renderIn stack template).run ⟨10, 5⟩ 0 = (.ok "", 6) := by decide +kernel
  obtain ⟨-, hleast, hless, hmost, -⟩ := scans_between stack template
  rw [hlength] at hleast hless hmost
  exact ⟨hshort, hrun, hleast _ _ _ hrun, hless ⟨3, 5⟩ (by decide),
    hmost hshort ⟨10, 0⟩ (by decide)⟩

end Template

end Vitae
