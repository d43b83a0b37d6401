import Vitae.Html.Escape

/-!
# Reading escaped text

`unescape` reads a text from the left and puts the character that an entity stands for in its place;
an ampersand that begins none of the five entities stands for itself. What it reads off an escaped
text is the text that was escaped (`unescape_escape`), also where this looks like entities: its
ampersands were escaped, and one that is read is not looked at again.
-/

namespace Vitae.Html

/-- The text that is written with entities. -/
def unescape : List Char → List Char
  | '&' :: 'a' :: 'm' :: 'p' :: ';' :: rest => '&' :: unescape rest
  | '&' :: 'l' :: 't' :: ';' :: rest => '<' :: unescape rest
  | '&' :: 'g' :: 't' :: ';' :: rest => '>' :: unescape rest
  | '&' :: 'q' :: 'u' :: 'o' :: 't' :: ';' :: rest => '\x22' :: unescape rest
  | '&' :: '#' :: '3' :: '9' :: ';' :: rest => '\x27' :: unescape rest
  | c :: rest => c :: unescape rest
  | [] => []

theorem unescape_cons {c : Char} (h : c ≠ '&') (rest : List Char) :
    unescape (c :: rest) = c :: unescape rest := by
  conv => lhs; unfold unescape
  split <;> simp_all

/-- An escaped character is read as the character. -/
theorem unescape_escapeChar (c : Char) (rest : List Char) :
    unescape (escapeChar c ++ rest) = c :: unescape rest := by
  unfold escapeChar
  split
  · rename_i entity hentity
    unfold entity? at hentity
    split at hentity
    all_goals cases hentity
    all_goals simp [unescape]
  · rename_i hplain
    have hc : c ≠ '&' := by
      rintro rfl
      cases hplain
    exact unescape_cons hc rest

/-- An escaped text is read as the text. -/
@[simp] theorem unescape_escape (s : String) : unescape (escape s).toList = s.toList := by
  rw [toList_escape]
  induction s.toList with
  | nil => rfl
  | cons c rest ih => rw [List.flatMap_cons, unescape_escapeChar, ih]

/-- The characters that never stand in an escaped text. -/
def hiddenChars : List Char := ['<', '>', '\x22', '\x27']

theorem not_mem_escapeChar {d : Char} (hd : d ∈ hiddenChars) (c : Char) : d ∉ escapeChar c := by
  simp only [hiddenChars, List.mem_cons, List.not_mem_nil, or_false] at hd
  unfold escapeChar
  split
  · rename_i entity hentity
    unfold entity? at hentity
    split at hentity
    all_goals cases hentity
    all_goals rcases hd with rfl | rfl | rfl | rfl <;> decide
  · rename_i hplain
    intro hmem
    obtain rfl := List.mem_singleton.mp hmem
    rcases hd with rfl | rfl | rfl | rfl <;> cases hplain

theorem not_mem_escape {d : Char} (hd : d ∈ hiddenChars) (s : String) :
    d ∉ (escape s).toList := by
  rw [toList_escape, List.mem_flatMap]
  rintro ⟨c, -, hmem⟩
  exact not_mem_escapeChar hd c hmem

/-- No tag begins in an escaped text. -/
theorem lt_not_mem_escape (s : String) : '<' ∉ (escape s).toList := not_mem_escape (by decide) s

end Vitae.Html
