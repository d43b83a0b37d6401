import Vitae.Template.Context

/-!
# Paths in two steps

A path with a point in it may be followed in two steps: first to what stands before the point, and
then, in the value found there, to what stands behind it. Within one value this holds of all texts
(`follow?_pathNames_point`), since the names of a path are those before a point and those behind it,
empty ones and indexes among them (`pathNames_point`).

In a context the two steps look into different frames: a path is never put together from parts that
lie in different frames, and the second step begins in a frame of its own. `resolve?_point` says
that they meet the same value all the same. No frame on top of the one that decides the first step
can decide the whole path, because a frame without a value for the first part has none for the whole
(`Frame.lookup?_append`).
-/

namespace Vitae.Template

/-! ### Paths within one value -/

/-- The names of a path are those before a point and those behind it. -/
theorem pathNames_point (front back : String) :
    pathNames (front ++ "." ++ back) = pathNames front ++ pathNames back := by
  have hpath : (front ++ "." ++ back).toList = front.toList ++ '.' :: back.toList := by simp
  rw [pathNames, hpath, List.splitOn_append_cons_self]
  rfl

/-- Names are followed one after another, so a list of them may be followed in two parts. -/
theorem follow?_append (value : Json) (names more : List (List Char)) :
    follow? value (names ++ more) = (follow? value names).bind (follow? · more) :=
  List.foldlM_append

/-- **Paths compose.** A path with a point leads from a value to where its second part leads from
the value that its first part leads to. -/
theorem follow?_pathNames_point (value : Json) (front back : String) :
    follow? value (pathNames (front ++ "." ++ back)) =
      (follow? value (pathNames front)).bind (follow? · (pathNames back)) := by
  rw [pathNames_point, follow?_append]

/-! ### Paths in a context -/

/-- A frame in which the first part of a path leads nowhere has no value for the whole path. -/
theorem Frame.lookup?_append (frame : Frame) (names more : List (List Char)) :
    frame.lookup? (names ++ more) = (frame.lookup? names).bind (follow? · more) := by
  cases frame with
  | record value => exact follow?_append value names more
  | wrapped value => rfl

theorem Stack.resolve?_of_ne {path : String} (h : path ≠ ".") (stack : Stack) :
    stack.resolve? path = stack.findSome? (Frame.lookup? (pathNames path)) :=
  if_neg h

/-- The frame that decides a list of names decides every longer one that leads to a value from
there. -/
theorem findSome?_lookup?_append {stack : Stack} {names more : List (List Char)}
    {between found : Json} (hbetween : stack.findSome? (Frame.lookup? names) = some between)
    (hfound : follow? between more = some found) :
    stack.findSome? (Frame.lookup? (names ++ more)) = some found := by
  induction stack with
  | nil => cases hbetween
  | cons frame rest ih =>
      rw [List.findSome?_cons] at hbetween ⊢
      rw [Frame.lookup?_append]
      cases hframe : frame.lookup? names with
      | none =>
          rw [hframe] at hbetween
          exact ih hbetween
      | some value =>
          rw [hframe] at hbetween
          obtain rfl : value = between := Option.some.inj hbetween
          rw [Option.bind_some, hfound]

/-- **A path with a point is as good as a section.** Where the first part of a path names a value
and the second part names another one in that value alone, the whole path names the latter, and so
does the second part once the former is on top of the context. Within one value a path leads on just
where both of its parts do, whatever texts they are. -/
theorem resolve?_point (stack : Stack) (value : Json) (front back : String) :
    (∀ between found : Json, front ≠ "." → back ≠ "." → front ++ "." ++ back ≠ "." →
      stack.resolve? front = some between → Stack.resolve? [.record between] back = some found →
        stack.resolve? (front ++ "." ++ back) = some found ∧
          Stack.resolve? (.record between :: stack) back = some found) ∧
    follow? value (pathNames (front ++ "." ++ back)) =
      (follow? value (pathNames front)).bind (follow? · (pathNames back)) ∧
    ((follow? value (pathNames (front ++ "." ++ back))).isSome ↔
      ∃ between, follow? value (pathNames front) = some between ∧
        (follow? between (pathNames back)).isSome) := by
  refine ⟨?_, follow?_pathNames_point value front back, ?_⟩
  · intro between found hfront hback hpath hbetween hfound
    rw [Stack.resolve?_of_ne hfront] at hbetween
    rw [Stack.resolve?_of_ne hback, List.findSome?_singleton] at hfound
    have hfollow : follow? between (pathNames back) = some found := hfound
    constructor
    · rw [Stack.resolve?_of_ne hpath, pathNames_point]
      exact findSome?_lookup?_append hbetween hfollow
    · rw [Stack.resolve?_of_ne hback, List.findSome?_cons]
      simp only [Frame.lookup?, hfollow]
  · rw [follow?_pathNames_point, Option.isSome_bind, Option.any_eq_true]

/-- The frame on top has a `b` of its own, but none within an `a`; the path has an index in it. -/
theorem resolve?_point_shadowed :
    let between : Json := .obj [("b", .arr [.null, .bool true])]
    let stack : Stack := [.record (.obj [("b", .str "x")]), .record (.obj [("a", between)])]
    stack.resolve? "a" = some between ∧
      Stack.resolve? [.record between] "b.1" = some (.bool true) ∧
      stack.resolve? "a.b.1" = some (.bool true) ∧
      Stack.resolve? (.record between :: stack) "b.1" = some (.bool true) := by
  intro between stack
  have hbetween : stack.resolve? "a" = some between := by rfl
  have hfound : Stack.resolve? [.record between] "b.1" = some (.bool true) := by rfl
  obtain ⟨hpoint, -, -⟩ := resolve?_point stack between "a" "b.1"
  obtain ⟨hwhole, hpushed⟩ := hpoint between (.bool true) (by decide) (by decide) (by decide)
    hbetween hfound
  exact ⟨hbetween, hfound, hwhole, hpushed⟩

end Vitae.Template
