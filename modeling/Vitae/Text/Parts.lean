import Vitae.Text.Blank
/-!
# Lists of short texts

Loosely kept lists come as one string with a separator or as separate entries, padded with blanks
and with gaps. `pieces` cuts at a separator, `present` trims the entries and leaves out the empty
ones, `joinPresent` joins what is not empty.
-/

namespace Vitae.Text

/-- The texts between the separators of a string: one more than it has separators. -/
def pieces (separator : Char) (s : String) : List String :=
  (s.toList.splitOn separator).map String.ofList

/-- The trimmed entries that are not empty, in order. -/
def present (entries : List String) : List String :=
  (entries.map trimmed).filter (· ≠ "")

/-- Joins the parts that are not empty. -/
def joinPresent (separator : String) (parts : List String) : String :=
  separator.intercalate (parts.filter (· ≠ ""))

/-- Every entry left is trimmed. -/
theorem trimmed_of_mem_present {entries : List String} {s : String} (h : s ∈ present entries) :
    trimmed s = s := by
  simp only [present, List.mem_filter, List.mem_map] at h
  obtain ⟨⟨t, -, rfl⟩, -⟩ := h
  exact trimmed_trimmed t

/-- No entry left is empty. -/
theorem ne_empty_of_mem_present {entries : List String} {s : String} (h : s ∈ present entries) :
    s ≠ "" := by
  simpa using (List.mem_filter.mp h).2

/-- Entries that are trimmed and not empty are all kept as they are. -/
theorem present_eq_self {entries : List String} (h : ∀ s ∈ entries, trimmed s = s ∧ s ≠ "") :
    present entries = entries := by
  induction entries with
  | nil => rfl
  | cons s rest ih =>
    obtain ⟨hs, hne⟩ := h s List.mem_cons_self
    have := ih fun t ht => h t (List.mem_cons_of_mem _ ht)
    simp_all [present]

end Vitae.Text
