import Vitae.Number.Basic
import Vitae.Text.Blank

/-!
# Texts of numbers

A number is written with digits, a point, a mark of the exponent and signs, whatever its value
(`isNumberChar_of_mem_text`). None of these is blank, so the text of a number is left alone by
trimming (`Number.trimmed_text`).
-/

namespace Vitae

/-- The characters that numbers are written with. -/
def isNumberChar (c : Char) : Bool := c.isDigit || c ∈ ['-', '+', '.', 'e']

theorem isNumberChar_of_isDigit {c : Char} (h : c.isDigit = true) : isNumberChar c = true := by
  simp [isNumberChar, h]

/-- No character of a number is blank. -/
theorem isBlank_of_isNumberChar {c : Char} (h : isNumberChar c = true) :
    Text.isBlank c = false := by
  simp only [isNumberChar, Bool.or_eq_true, List.mem_cons, List.not_mem_nil, or_false,
    decide_eq_true_eq] at h
  rcases h with hdigit | rfl | rfl | rfl | rfl
  · have hrange : 48 ≤ c.toNat ∧ c.toNat ≤ 57 := by
      simpa [Char.isDigit, UInt32.le_iff_toNat_le] using hdigit
    simp [Text.isBlank, Text.blankRanges]
    omega
  · decide
  · decide
  · decide
  · decide

theorem isNumberChar_of_mem_toDigits {n : Nat} {c : Char} (h : c ∈ Nat.toDigits 10 n) :
    isNumberChar c = true :=
  isNumberChar_of_isDigit (Nat.isDigit_of_mem_toDigits (by decide) (by decide) h)

namespace Decimal

theorem isNumberChar_of_mem_digits {d : Decimal} {c : Char} (h : c ∈ d.digits) :
    isNumberChar c = true := by
  unfold digits at h
  have hmem := (List.dropWhile_sublist _).mem (List.mem_reverse.mp h)
  exact isNumberChar_of_mem_toDigits (List.mem_reverse.mp hmem)

theorem isNumberChar_of_mem_plain {d : Decimal} {c : Char} (h : c ∈ d.plain) :
    isNumberChar c = true := by
  have hzero : isNumberChar '0' = true := by decide
  have hpoint : isNumberChar '.' = true := by decide
  unfold plain at h
  split at h
  · simp only [List.mem_cons, List.mem_append, List.mem_replicate] at h
    rcases h with rfl | rfl | ⟨-, rfl⟩ | h
    · exact hzero
    · exact hpoint
    · exact hzero
    · exact isNumberChar_of_mem_digits h
  · simp only [List.mem_append, List.mem_cons, List.mem_replicate] at h
    rcases h with (h | ⟨-, rfl⟩) | rfl | h
    · exact isNumberChar_of_mem_digits (List.mem_of_mem_take h)
    · exact hzero
    · exact hpoint
    · split at h
      · exact List.mem_singleton.mp h ▸ hzero
      · exact isNumberChar_of_mem_digits (List.mem_of_mem_drop h)

theorem isNumberChar_of_mem_scientific {d : Decimal} {c : Char} (h : c ∈ d.scientific) :
    isNumberChar c = true := by
  simp only [scientific, List.mem_append, List.mem_cons] at h
  rcases h with (h | h) | rfl | rfl | h
  · exact isNumberChar_of_mem_digits (List.mem_of_mem_take h)
  · split at h
    · cases h
    · rcases List.mem_cons.mp h with rfl | h
      · decide
      · exact isNumberChar_of_mem_digits (List.mem_of_mem_drop h)
  · decide
  · split <;> decide
  · exact isNumberChar_of_mem_toDigits h

end Decimal

/-- A double is written with the characters of numbers alone. -/
theorem Double.isNumberChar_of_mem_text {x : Double} {c : Char} (h : c ∈ x.text.toList) :
    isNumberChar c = true := by
  have hmagnitude : ∀ c ∈ (if x.isZero then ['0', '.', '0'] else x.shortest.text),
      isNumberChar c = true := by
    intro c h
    split at h
    · simp only [List.mem_cons, List.not_mem_nil, or_false] at h
      rcases h with rfl | rfl | rfl <;> decide
    · unfold Decimal.text at h
      split at h
      · exact Decimal.isNumberChar_of_mem_plain h
      · exact Decimal.isNumberChar_of_mem_scientific h
  rw [text, String.toList_ofList] at h
  split at h
  · rcases List.mem_cons.mp h with rfl | h
    · decide
    · exact hmagnitude c h
  · exact hmagnitude c h

namespace Number

theorem isNumberChar_of_mem_intText {i : Int} {c : Char} (h : c ∈ (intText i).toList) :
    isNumberChar c = true := by
  have hdigits : ∀ c ∈ (Text.numeral i.natAbs).toList, isNumberChar c = true := by
    intro c h
    rw [Text.numeral, String.toList_ofList] at h
    exact isNumberChar_of_mem_toDigits h
  unfold intText at h
  split at h
  · rw [String.toList_append, List.mem_append] at h
    rcases h with h | h
    · obtain rfl : c = '-' := by simpa using h
      decide
    · exact hdigits c h
  · exact hdigits c h

/-- A number is written with the characters of numbers alone. -/
theorem isNumberChar_of_mem_text {n : Number} {c : Char} (h : c ∈ n.text.toList) :
    isNumberChar c = true := by
  cases n with
  | int i => exact isNumberChar_of_mem_intText h
  | float x =>
      cases hint : x.toInt? with
      | none =>
          rw [text, hint] at h
          exact Double.isNumberChar_of_mem_text h
      | some i =>
          simp only [text, hint] at h
          split at h
          · exact isNumberChar_of_mem_intText h
          · exact Double.isNumberChar_of_mem_text h

/-- The text of a number is trimmed. -/
theorem trimmed_text (n : Number) : Text.trimmed n.text = n.text := by
  have hblank : ∀ c ∈ n.text.toList, Text.isBlank c = false := by
    intro c h
    exact isBlank_of_isNumberChar (isNumberChar_of_mem_text h)
  rw [Text.trimmed, Text.trim_eq_self, String.ofList_toList]
  · exact fun c h => hblank c (List.mem_of_mem_head? h)
  · exact fun c h => hblank c (List.mem_of_getLast? h)

end Number

end Vitae
