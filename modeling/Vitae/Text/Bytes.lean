/-!
# Byte counts of a text

Offsets and lengths of templates are counted in bytes of their UTF-8 form. `byteCount` measures a
text; `dropBytes?` steps a number of bytes into one, which fails inside a character and past the
end.
-/

namespace Vitae.Text

/-- The number of bytes of the UTF-8 form of a text. -/
def byteCount (s : List Char) : Nat := s.foldl (fun n c => n + c.utf8Size) 0

/-- What follows the first `n` bytes of a text; nothing when these bytes end inside a character or
when there are fewer of them. -/
def dropBytes? : Nat → List Char → Option (List Char)
  | 0, s => some s
  | _ + 1, [] => none
  | n + 1, c :: s => if c.utf8Size ≤ n + 1 then dropBytes? (n + 1 - c.utf8Size) s else none

private theorem byteCount_foldl (s : List Char) (n : Nat) :
    s.foldl (fun n c => n + c.utf8Size) n = n + byteCount s := by
  induction s generalizing n with
  | nil => rfl
  | cons c r ih =>
    have h : byteCount (c :: r) = 0 + c.utf8Size + byteCount r := ih _
    rw [List.foldl_cons, ih, h]
    omega

@[simp] theorem byteCount_nil : byteCount [] = 0 := rfl

@[simp] theorem byteCount_cons (c : Char) (s : List Char) :
    byteCount (c :: s) = c.utf8Size + byteCount s := by
  rw [byteCount, List.foldl_cons, byteCount_foldl]
  omega

@[simp] theorem byteCount_append (s t : List Char) :
    byteCount (s ++ t) = byteCount s + byteCount t := by
  induction s with
  | nil => simp
  | cons c r ih => simp [ih]; omega

/-- It is the size of the string with these characters. -/
theorem byteCount_toList (s : String) : byteCount s.toList = s.utf8ByteSize := by
  have hsize (cs : List Char) : (String.ofList cs).utf8ByteSize = byteCount cs := by
    induction cs with
    | nil => rfl
    | cons c cs ih => simp [String.ofList_cons, ih]
  rw [← hsize, String.ofList_toList]

/-- Stepping over the bytes of the first part of a text gives the second part. -/
theorem dropBytes?_append (s t : List Char) : dropBytes? (byteCount s) (s ++ t) = some t := by
  induction s with
  | nil => simp [dropBytes?]
  | cons c r ih =>
    have hc : 0 < c.utf8Size := Char.utf8Size_pos c
    obtain ⟨k, hk⟩ : ∃ k, c.utf8Size + byteCount r = k + 1 := ⟨_, (Nat.succ_pred (by omega)).symm⟩
    rw [byteCount_cons, hk, List.cons_append, dropBytes?, if_pos (by omega),
      show k + 1 - c.utf8Size = byteCount r by omega, ih]

/-- Whatever `dropBytes?` gives is an end part of the text, after that many bytes. -/
theorem eq_append_of_dropBytes? {n : Nat} {s t : List Char} (h : dropBytes? n s = some t) :
    ∃ front, s = front ++ t ∧ byteCount front = n := by
  fun_induction dropBytes? n s with
  | case1 s => exact ⟨[], by simpa using h, rfl⟩
  | case2 => simp at h
  | case3 n c s hle ih =>
    obtain ⟨front, rfl, hn⟩ := ih h
    exact ⟨c :: front, rfl, by rw [byteCount_cons]; omega⟩
  | case4 => simp at h

end Vitae.Text
