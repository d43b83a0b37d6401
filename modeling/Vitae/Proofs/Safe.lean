import Vitae.Html.Value

/-!
# Safe text

A text is *safe* when it is put together from characters that mean nothing in HTML, from the five
entities, and from the fixed pieces of markup in which résumé entries are shown (`SafePiece`). No
text from a résumé can add a piece to that list.

Safe texts can be joined (`Safe.append`, `Safe.join`), escaping makes every text safe
(`safe_escape`), and whatever `format` shows is safe, given only that finished markup, which it does
not look into, was safe before (`safe_format`).
-/

namespace Vitae.Html

/-! ### The language of safe texts -/

/-- The characters with a meaning in HTML. -/
def markupChars : List Char := ['<', '>', '\x22', '\x27', '&']

/-- The entities by which these characters are written. -/
def entities : List String := ["&amp;", "&lt;", "&gt;", "&quot;", "&#39;"]

/-- The markup in which résumé entries are shown. -/
def fixedMarkup : List String :=
  ["<div class=\"resume-item work-item\">", "<div class=\"resume-item education-item\">",
    "<div class=\"meta\">", "<div><strong>", "</strong></div>", "</div>", "<ul>", "</ul>", "<li>",
    "</li>"]

/-- What safe texts are put together from. -/
inductive SafePiece : String → Prop where
  | char {c : Char} (h : c ∉ markupChars) : SafePiece (String.singleton c)
  | entity {s : String} (h : s ∈ entities) : SafePiece s
  | markup {s : String} (h : s ∈ fixedMarkup) : SafePiece s

/-- Whether a text is put together from safe pieces. -/
def Safe (s : String) : Prop :=
  ∃ pieces : List String, (∀ piece ∈ pieces, SafePiece piece) ∧ s = String.join pieces

theorem SafePiece.safe {s : String} (h : SafePiece s) : Safe s :=
  ⟨[s], by simpa using h, by simp⟩

theorem safe_empty : Safe "" := ⟨[], by simp, rfl⟩

theorem Safe.append {s t : String} (hs : Safe s) (ht : Safe t) : Safe (s ++ t) := by
  obtain ⟨first, hfirst, rfl⟩ := hs
  obtain ⟨second, hsecond, rfl⟩ := ht
  refine ⟨first ++ second, ?_, by simp⟩
  intro piece hpiece
  rcases List.mem_append.mp hpiece with h | h
  · exact hfirst piece h
  · exact hsecond piece h

theorem Safe.join {parts : List String} (h : ∀ s ∈ parts, Safe s) : Safe (String.join parts) := by
  induction parts with
  | nil => exact safe_empty
  | cons s rest ih =>
      rw [String.join_cons]
      exact (h s List.mem_cons_self).append (ih fun t ht => h t (List.mem_cons_of_mem _ ht))

/-- A text without any character of markup is safe. -/
theorem safe_ofList {s : List Char} (h : ∀ c ∈ s, c ∉ markupChars) : Safe (String.ofList s) := by
  induction s with
  | nil => exact safe_empty
  | cons c rest ih =>
      have hc : SafePiece (String.singleton c) := .char (h c List.mem_cons_self)
      rw [String.ofList_cons]
      exact hc.safe.append (ih fun d hd => h d (List.mem_cons_of_mem _ hd))

/-! ### Escaping -/

theorem mem_entities {c : Char} {entity : String} (h : entity? c = some entity) :
    entity ∈ entities := by
  unfold entity? at h
  split at h <;> simp_all [entities]

theorem not_mem_markupChars {c : Char} (h : entity? c = none) : c ∉ markupChars := by
  intro hc
  simp only [markupChars, List.mem_cons, List.not_mem_nil, or_false] at hc
  rcases hc with rfl | rfl | rfl | rfl | rfl <;> simp [entity?] at h

/-- Every text is safe once it is escaped. -/
theorem safe_escape (s : String) : Safe (escape s) := by
  unfold escape
  generalize s.toList = cs
  induction cs with
  | nil => exact safe_empty
  | cons c rest ih =>
      rw [List.flatMap_cons, String.ofList_append]
      refine Safe.append ?_ ih
      unfold escapeChar
      cases h : entity? c with
      | none => exact safe_ofList (by simpa using not_mem_markupChars h)
      | some entity =>
          rw [String.ofList_toList]
          exact (SafePiece.entity (mem_entities h)).safe

/-! ### Résumé entries -/

/-- A text in a piece of markup is safe, since it is escaped. -/
theorem safe_between {opening closing : String} (hopening : opening ∈ fixedMarkup)
    (hclosing : closing ∈ fixedMarkup) (text : String) : Safe (between opening closing text) := by
  unfold between
  split
  · exact safe_empty
  · exact ((SafePiece.markup hopening).safe.append (safe_escape text)).append
      (SafePiece.markup hclosing).safe

theorem safe_pointList (points : List String) : Safe (pointList points) := by
  have hpiece {s : String} (h : s ∈ fixedMarkup) : Safe s := (SafePiece.markup h).safe
  unfold pointList
  split
  · exact safe_empty
  · refine ((hpiece (by decide)).append (.join ?_)).append (hpiece (by decide))
    intro s hs
    obtain ⟨point, -, rfl⟩ := List.mem_map.mp hs
    exact ((hpiece (by decide)).append (safe_escape point)).append (hpiece (by decide))

/-- The markup of an entry is safe when its class is one of the known two. -/
theorem safe_blockHtml {block : Block}
    (hkind : block.kind = "work-item" ∨ block.kind = "education-item") : Safe block.html := by
  have hopening : "<div class=\"resume-item " ++ block.kind ++ "\">" ∈ fixedMarkup := by
    rcases hkind with h | h <;> rw [h] <;> decide
  have hlines : Safe (String.join (block.lines.map (between "<div class=\"meta\">" "</div>"))) := by
    refine .join ?_
    intro s hs
    obtain ⟨line, -, rfl⟩ := List.mem_map.mp hs
    exact safe_between (by decide) (by decide) line
  have hheading : Safe (between "<div><strong>" "</strong></div>" block.heading) :=
    safe_between (by decide) (by decide) _
  exact ((((SafePiece.markup hopening).safe.append hheading).append hlines).append
    (safe_pointList block.points)).append (SafePiece.markup (by decide)).safe

theorem safe_blocksHtml {block : Json.Fields → Block} (h : ∀ entry, Safe (block entry).html)
    (items : List Json) : Safe (blocksHtml block items) := by
  refine .join ?_
  intro s hs
  obtain ⟨entry, -, rfl⟩ := List.mem_map.mp hs
  exact h entry

theorem safe_workHtml (items : List Json) : Safe (workHtml items) :=
  safe_blocksHtml (fun _ => safe_blockHtml (.inl rfl)) items

theorem safe_educationHtml (items : List Json) : Safe (educationHtml items) :=
  safe_blocksHtml (fun _ => safe_blockHtml (.inr rfl)) items

/-! ### Values -/

theorem safe_formatList (items : List Json) (path : String) : Safe (formatList items path) := by
  unfold formatList
  split
  · exact safe_workHtml items
  · split
    · exact safe_educationHtml items
    · exact safe_escape _

theorem safe_formatObject (fields : Json.Fields) : Safe (formatObject fields) := by
  unfold formatObject
  split
  · exact safe_escape _
  · exact safe_escape _
  · exact safe_empty

/-- What is shown for a value is safe if the markup that the value may be is safe. -/
theorem safe_format {value : Option Json}
    (h : ∀ markup, value.bind safe? = some markup → Safe markup) (path : String) :
    Safe (format value path) := by
  cases value with
  | none => exact safe_empty
  | some value =>
      cases hmarkup : safe? value with
      | some markup =>
          simp only [format, hmarkup]
          exact h markup hmarkup
      | none =>
          cases value with
          | null => exact safe_empty
          | bool b =>
              cases b with
              | false => exact safe_empty
              | true => exact safe_ofList (s := ['t', 'r', 'u', 'e']) (by simp [markupChars])
          | num n => exact safe_escape _
          | str s => exact safe_escape s
          | arr items => exact safe_formatList items path
          | obj fields =>
              simp only [format, hmarkup]
              exact safe_formatObject fields

end Vitae.Html
