import Mathlib.Logic.Function.Basic
import Vitae.Proofs.Safe
import Vitae.Proofs.Unescape

/-!
# What a page says

A value that is no finished markup and is not shown as a list of entries says a text
(`plainText`), and what is put on the page for it is this text, escaped once (`format_eq_escape`).
So nothing gets lost on the page and nothing is added: whoever reads the entities reads the text.

An escaped text holds none of the characters it must not hold, and an ampersand only where an entity
begins (`entity_of_ampersand`): the entities and the characters that stand for themselves are the
blocks of an escaped text, and no block has an ampersand behind its first character
(`ampersand_in_block`).
-/

namespace Vitae.Html

/-! ### Where ampersands stand -/

/-- An entity has no ampersand but its first character. -/
theorem entity_eq_cons {c : Char} {entity : String} (h : entity? c = some entity) :
    ∃ more, entity.toList = '&' :: more ∧ '&' ∉ more := by
  unfold entity? at h
  split at h
  all_goals cases h
  all_goals exact ⟨_, rfl, by decide⟩

/-- An ampersand in a text that begins with an escaped character begins the entity of that
character, or stands behind it. -/
theorem ampersand_in_block {c : Char} {tail front rest : List Char}
    (h : escapeChar c ++ tail = front ++ '&' :: rest) :
    (∃ entity ∈ entities, entity.toList <+: '&' :: rest) ∨
      ∃ behind, tail = behind ++ '&' :: rest := by
  unfold escapeChar at h
  split at h
  · rename_i entity hentity
    obtain ⟨more, hmore, hnone⟩ := entity_eq_cons hentity
    cases front with
    | nil => exact .inl ⟨entity, mem_entities hentity, ⟨tail, h⟩⟩
    | cons d front =>
        rw [hmore, List.cons_append, List.cons_append] at h
        rcases List.append_eq_append_iff.mp (List.cons.inj h).2 with
          ⟨behind, -, htail⟩ | ⟨inside, hinside, hrest⟩
        · exact .inr ⟨behind, htail⟩
        · -- what is left of the entity holds no ampersand, so the ampersand begins the tail
          cases inside with
          | nil => exact .inr ⟨[], by simpa using hrest.symm⟩
          | cons e inside =>
              obtain ⟨rfl, -⟩ := List.cons.inj hrest
              exact absurd (hinside ▸ by simp) hnone
  · rename_i hplain
    cases front with
    | nil =>
        obtain ⟨rfl, -⟩ := List.cons.inj h
        cases hplain
    | cons d front => exact .inr ⟨front, (List.cons.inj h).2⟩

/-- Every ampersand of an escaped text begins an entity. -/
theorem entity_of_ampersand {s : String} {front rest : List Char}
    (h : (escape s).toList = front ++ '&' :: rest) :
    ∃ entity ∈ entities, entity.toList <+: '&' :: rest := by
  rw [toList_escape] at h
  generalize s.toList = cs at h
  induction cs generalizing front with
  | nil => simp at h
  | cons c cs ih =>
      rw [List.flatMap_cons] at h
      rcases ampersand_in_block h with hentity | ⟨behind, hbehind⟩
      · exact hentity
      · exact ih hbehind

/-- Different texts are escaped differently. -/
theorem escape_injective : Function.Injective escape := by
  intro s t h
  refine String.toList_injective ?_
  rw [← unescape_escape s, ← unescape_escape t, h]

/-! ### Values and their texts -/

/-- The texts of the strings, numbers and truth values of a list, trimmed, with commas between
those that are not empty. -/
def joinedTexts (items : List Json) : String :=
  ", ".intercalate (((items.filterMap scalarText?).map Text.trimmed).filter (· ≠ ""))

/-- The text of an object: the string under `text`, or else the texts of the list under `raw`. -/
def objectText (fields : Json.Fields) : String :=
  match (fields.get? "text").bind Json.str?, (fields.get? "raw").bind Json.items? with
  | some text, _ => text
  | none, some items => joinedTexts items
  | none, none => ""

/-- The text that a value says where it is not shown as markup. -/
def plainText : Json → String
  | .null | .bool false => ""
  | .bool true => "true"
  | .num n => n.text
  | .str s => s
  | .arr items => joinedTexts items
  | .obj fields => objectText fields

/-- Whether a value is shown as a list of entries at a path. -/
def ShownAsEntries (value : Json) (path : String) : Prop :=
  (∃ items, value = .arr items) ∧ (path ∈ workPaths ∨ path = educationPath)

theorem formatObject_eq_escape (fields : Json.Fields) :
    formatObject fields = escape (objectText fields) := by
  rw [formatObject_eq, objectText]
  cases (fields.get? "text").bind Json.str? with
  | some text => rfl
  | none =>
      cases (fields.get? "raw").bind Json.items? with
      | some items => rfl
      | none => exact escape_empty.symm

/-- What is put on the page for a value is its text, escaped. -/
theorem format_eq_escape {value : Json} {path : String} (hmarkup : safe? value = none)
    (hpath : ¬ ShownAsEntries value path) :
    format (some value) path = escape (plainText value) := by
  cases value with
  | null => exact escape_empty.symm
  | bool b =>
      cases b with
      | false => exact escape_empty.symm
      | true => rfl
  | num n => rfl
  | str s => rfl
  | arr items =>
      have hlist : path ∉ workPaths ∧ path ≠ educationPath :=
        not_or.mp fun h => hpath ⟨⟨items, rfl⟩, h⟩
      show formatList items path = _
      rw [formatList, if_neg hlist.1, if_neg hlist.2]
      rfl
  | obj fields =>
      simp only [format, hmarkup]
      exact formatObject_eq_escape fields

/-- **Escaping is faithful wherever it is used.** An escaped text holds no character that would
begin or end a tag or an attribute, and no ampersand but those of entities; reading the entities
gives the text back, also where it looks like entities itself, so different texts are escaped
differently. And what is put on the page for a value, unless it is finished markup or a list of
entries, is read as the text that the value says. -/
theorem escaping_faithful :
    (∀ s : String, (∀ c ∈ hiddenChars, c ∉ (escape s).toList) ∧
      (∀ front rest, (escape s).toList = front ++ '&' :: rest →
        ∃ entity ∈ entities, entity.toList <+: '&' :: rest) ∧
      unescape (escape s).toList = s.toList) ∧
    Function.Injective escape ∧
    ∀ (value : Json) (path : String), safe? value = none → ¬ ShownAsEntries value path →
      unescape (format (some value) path).toList = (plainText value).toList := by
  refine ⟨?_, escape_injective, ?_⟩
  · intro s
    exact ⟨fun c hc => not_mem_escape hc s, fun _ _ => entity_of_ampersand, unescape_escape s⟩
  · intro value path hmarkup hpath
    rw [format_eq_escape hmarkup hpath, unescape_escape]

/-- The raw list of an object says its texts, of which one looks like an entity, one is blank and
two come from a number and a truth value; a list in it says nothing. -/
theorem escaping_faithful_raw :
    let raw : List Json := [.str " a<b ", .str "&lt;", .str "\t", .num (.float (.zero true)),
      .bool false, .arr [.str "c"]]
    let value : Json := .obj [("raw", .arr raw), ("text", .null)]
    safe? value = none ∧ ¬ ShownAsEntries value "education" ∧
      format (some value) "education" = "a&lt;b, &amp;lt;, 0, false" ∧
      unescape (format (some value) "education").toList = "a<b, &lt;, 0, false".toList := by
  intro raw value
  have hmarkup : safe? value = none := rfl
  have hpath : ¬ ShownAsEntries value "education" := by
    rintro ⟨⟨items, hitems⟩, -⟩
    simp [value] at hitems
  have hread := escaping_faithful.2.2 value "education" hmarkup hpath
  have hplain : plainText value = "a<b, &lt;, 0, false" := by decide +kernel
  rw [hplain] at hread
  exact ⟨hmarkup, hpath, by decide +kernel, hread⟩

end Vitae.Html
