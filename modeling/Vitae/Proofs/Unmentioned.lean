import Vitae.Proofs.LockStep
import Vitae.Template.Position

/-!
# Data that a template does not mention

A template reads its data by the paths of its tags, and a path is looked up in an object under its
first name. So a render depends on no other key of the object than these: `mentioned` collects them
in one scan of the template, and two objects with the same values under these keys cannot be told
apart by the template, neither by its page nor by what it costs (`render_eq_of_agree`).

The invariant is that the contexts of two renders agree frame by frame (`Stack.AgreeOn`): they hold
the same frames, but for the two objects at the bottom. Every path of the template leads to the same
value in both (`resolve?_congr`), so sections put the same frames on both and the renders go on in
step (`renderTokens_congr`).
-/

namespace Vitae.Template

/-! ### The keys that a template mentions -/

/-- The path at which a tag looks into the data, if it does. -/
def Tag.path? : Tag → Option String
  | .substitution path => some path
  | .sectionOpen name | .invertedOpen name => some name
  | .empty | .sectionClose _ => none

/-- The first name of a path. -/
def firstName (path : String) : String := String.ofList ((pathNames path).headD [])

/-- The first names of all paths in a template. -/
def mentioned (template : String) : List String :=
  (allTags template.toList).filterMap fun placed => placed.tag.path?.map firstName

theorem mem_tagsFrom_of_mem_tokens {tag : Tag} {t : List Char} (h : .tag tag ∈ tokens t)
    (origin : Nat) : ∃ placed ∈ tagsFrom origin t, placed.tag = tag := by
  induction ht : t.length using Nat.strongRecOn generalizing origin t with
  | ind n ih =>
  subst ht
  cases hcut : cut t with
  | none =>
      rw [tokens_of_none hcut] at h
      simp at h
  | some c =>
      rw [tokens_of_cut hcut] at h
      rw [tagsFrom_of_cut hcut]
      rcases (List.mem_cons.mp ((List.mem_cons.mp h).resolve_left (by simp))) with hfirst | hrest
      · exact ⟨c.placed origin, List.mem_cons_self, (Token.tag.inj hfirst).symm⟩
      · obtain ⟨placed, hmem, htag⟩ := ih _ (length_after_lt hcut) hrest (c.placed origin).stop rfl
        exact ⟨placed, List.mem_cons_of_mem _ hmem, htag⟩

/-- The keys of a template are found on its tokens. -/
theorem firstName_mem_mentioned {template : String} {tag : Tag} {path : String}
    (h : .tag tag ∈ tokens template.toList) (hpath : tag.path? = some path) :
    firstName path ∈ mentioned template := by
  obtain ⟨placed, hmem, rfl⟩ := mem_tagsFrom_of_mem_tokens h 0
  exact List.mem_filterMap.mpr ⟨placed, hmem, by rw [hpath]; rfl⟩

/-! ### Contexts that agree -/

/-- Whether two frames are the same, or hold two objects with the same values under some keys. -/
inductive Frame.AgreeOn (keys : List String) : Frame → Frame → Prop where
  | same (frame : Frame) : AgreeOn keys frame frame
  | objects {fields fields' : Json.Fields}
      (h : ∀ key ∈ keys, fields.get? key = fields'.get? key) :
      AgreeOn keys (.record (.obj fields)) (.record (.obj fields'))

/-- Whether two contexts agree frame by frame. -/
def Stack.AgreeOn (keys : List String) : Stack → Stack → Prop := List.Forall₂ (Frame.AgreeOn keys)

variable {keys : List String}

theorem Stack.AgreeOn.findSome?_eq {stack stack' : Stack} (h : Stack.AgreeOn keys stack stack')
    (look : Frame → Option Json)
    (hlook : ∀ frame frame', Frame.AgreeOn keys frame frame' → look frame = look frame') :
    stack.findSome? look = stack'.findSome? look := by
  induction h with
  | nil => rfl
  | cons hframe _ ih => rw [List.findSome?_cons, List.findSome?_cons, hlook _ _ hframe, ih]

/-- A path is looked up under its first name. -/
theorem lookup?_congr {path : String} (hpath : firstName path ∈ keys) {frame frame' : Frame}
    (h : Frame.AgreeOn keys frame frame') :
    frame.lookup? (pathNames path) = frame'.lookup? (pathNames path) := by
  cases h with
  | same => rfl
  | objects h =>
      obtain ⟨name, rest, hnames⟩ :=
        List.exists_cons_of_ne_nil (List.splitOn_ne_nil '.' path.toList)
      have hfirst : firstName path = String.ofList name := by
        rw [firstName, pathNames, hnames]
        rfl
      have hvalue := h _ (hfirst ▸ hpath)
      simp only [Frame.lookup?, pathNames, hnames, follow?, List.foldlM_cons, part?, hvalue]

/-- A path names the same value in contexts that agree on its first name. -/
theorem resolve?_congr {path : String} (hpath : firstName path ∈ keys) {stack stack' : Stack}
    (h : Stack.AgreeOn keys stack stack') : stack.resolve? path = stack'.resolve? path := by
  have hnamed := h.findSome?_eq (Frame.lookup? (pathNames path)) fun _ _ => lookup?_congr hpath
  -- the two objects are no plain values, so the path `.` passes them by
  have hwrapped := h.findSome?_eq Frame.wrapped? fun _ _ hframe => by cases hframe <;> rfl
  have hplain := h.findSome?_eq Frame.plainRecord? fun _ _ hframe => by cases hframe <;> rfl
  rw [Stack.resolve?, Stack.resolve?, Stack.current?, Stack.current?, hnamed, hwrapped, hplain]

theorem Stack.AgreeOn.cons {stack stack' : Stack} (h : Stack.AgreeOn keys stack stack')
    (frame : Frame) : Stack.AgreeOn keys (frame :: stack) (frame :: stack') :=
  List.Forall₂.cons (.same frame) h

/-- A section has contexts that agree where its own contexts agree. -/
theorem contexts_congr {tag : Tag} (htag : ∀ path, tag.path? = some path → firstName path ∈ keys)
    {stack stack' : Stack} (h : Stack.AgreeOn keys stack stack') :
    List.Forall₂ (Stack.AgreeOn keys) (tag.contexts stack) (tag.contexts stack') := by
  have hone (holds : Bool) : List.Forall₂ (Stack.AgreeOn keys)
      (if holds then [stack] else []) (if holds then [stack'] else []) := by
    cases holds with
    | false => exact .nil
    | true => exact .cons h .nil
  cases tag with
  | sectionOpen name =>
      simp only [Tag.contexts, resolve?_congr (htag name rfl) h]
      unfold sectionContexts
      split
      · rename_i items
        rw [List.forall₂_map_left_iff, List.forall₂_map_right_iff]
        exact List.forall₂_same.mpr fun item _ => h.cons (itemFrame item)
      · split
        · exact .cons (h.cons _) .nil
        · exact hone _
      · exact hone _
  | invertedOpen name =>
      simp only [Tag.contexts, resolve?_congr (htag name rfl) h, invertedContexts]
      split
      · exact .nil
      · exact .cons h .nil
  | _ => exact .nil

theorem shown_congr {tag : Tag} (htag : ∀ path, tag.path? = some path → firstName path ∈ keys)
    {stack stack' : Stack} (h : Stack.AgreeOn keys stack stack') :
    tag.shown stack = tag.shown stack' := by
  cases tag with
  | substitution path => simp only [Tag.shown, resolve?_congr (htag path rfl) h]
  | _ => rfl

/-! ### Renders in contexts that agree -/

/-- Tokens are rendered alike in contexts that agree on the keys of their tags. -/
theorem renderTokens_congr {ts : List Token}
    (hkeys : ∀ tag path, .tag tag ∈ ts → tag.path? = some path → firstName path ∈ keys)
    {stack stack' : Stack} (h : Stack.AgreeOn keys stack stack') (depth : Nat) (out : String) :
    renderTokens depth stack out ts = renderTokens depth stack' out ts := by
  refine renderTokens_related (fun tag hmem => ?_) h depth out
  have htag (path : String) := hkeys tag path hmem
  refine ⟨fun stack stack' h => ?_, fun stack stack' h => ?_⟩
  · rw [Tag.rename_id, shown_congr htag h]
  · rw [Tag.rename_id]
    exact contexts_congr htag h

/-- A template cannot tell two objects apart that have the same values under its keys. -/
theorem renderIn_congr {template : String} {fields fields' : Json.Fields}
    (h : ∀ key ∈ mentioned template, fields.get? key = fields'.get? key) :
    renderIn [.record (.obj fields)] template = renderIn [.record (.obj fields')] template := by
  have hstack : Stack.AgreeOn (mentioned template) [.record (.obj fields)]
      [.record (.obj fields')] :=
    List.Forall₂.cons (.objects h) .nil
  rw [renderIn, renderIn, renderFrom_eq_renderTokens, renderFrom_eq_renderTokens]
  exact renderTokens_congr (fun _ _ => firstName_mem_mentioned) hstack 0 ""

/-- **Data that a template does not mention has no influence.** Two objects with the same values
under the keys of a template, where a key may also be missing from both, are rendered with the same
outcome and with as many scans, under all limits. -/
theorem render_eq_of_agree (template : String) (fields fields' : Json.Fields)
    (h : ∀ key ∈ mentioned template, fields.get? key = fields'.get? key) (limits : Limits) :
    render limits template (.obj fields) = render limits template (.obj fields') ∧
      ((renderIn [.record (.obj fields)] template).run limits 0).2 =
        ((renderIn [.record (.obj fields')] template).run limits 0).2 := by
  rw [render, render, renderIn_congr h]
  exact ⟨rfl, rfl⟩

/-- The key `b` is not mentioned: in the path `a.b` it is not the first name. -/
theorem render_eq_of_agree_added :
    let template := tagText "a.b" ++ tagText "#c" ++ tagText "d" ++ tagText "/c"
    let fields : Json.Fields :=
      [("a", .obj [("b", .str "1")]), ("c", .arr [.obj [], .null]), ("d", .str "2")]
    let fields' : Json.Fields := ("b", .str "hidden") :: fields
    mentioned template = ["a", "c", "d"] ∧
      (∀ key ∈ mentioned template, fields.get? key = fields'.get? key) ∧
        render {} template (.obj fields) = .ok "122" ∧
          render {} template (.obj fields') = .ok "122" := by
  intro template fields fields'
  have hkeys : mentioned template = ["a", "c", "d"] := by decide +kernel
  have hagree : ∀ key ∈ mentioned template, fields.get? key = fields'.get? key := by
    rw [hkeys]
    simp [fields', Json.Fields.get?_cons]
  have h : render {} template (.obj fields) = .ok "122" := by decide +kernel
  exact ⟨hkeys, hagree, h, (render_eq_of_agree template fields fields' hagree {}).1 ▸ h⟩

end Vitae.Template
