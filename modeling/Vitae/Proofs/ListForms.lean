import Vitae.Html.Value
import Vitae.Proofs.Canonical
import Vitae.Proofs.FieldValues
import Vitae.Proofs.Safe

/-!
# Lists in one string

A list of texts stands in a payload as an array or as one string with separators; skills stand also
in an object around either of the two. `normalize_listForm` says that the forms are read alike,
whatever stands beside them, and that the only spelling of a list gives its entries trimmed and
without the empty ones. The formatter writes a list with a blank behind each comma; as the blank is
trimmed away again, a normalized list is read back from its own text.

Both come from one fact about texts: cutting a joined list at the separator gives the entries back
(`Text.pieces_joined`), as long as no entry holds the separator. The empty list is the exception, as
it is written like the list of one empty entry; trimming makes the two alike.
-/

namespace Vitae

/-! ### Joining and cutting -/

namespace Text

variable {separator : Char} {entries : List String}

/-- The entries in one string, with a separator between them. -/
def joined (separator : Char) (entries : List String) : String :=
  (String.singleton separator).intercalate entries

theorem pieces_joined (hne : entries ≠ []) (h : ∀ s ∈ entries, separator ∉ s.toList) :
    pieces separator (joined separator entries) = entries := by
  have hsplit : (joined separator entries).toList.splitOn separator =
      entries.map String.toList := by
    rw [joined, String.toList_intercalate, String.toList_singleton]
    refine List.splitOn_intercalate separator (fun s hs => ?_) (mt List.map_eq_nil_iff.mp hne)
    obtain ⟨entry, hentry, rfl⟩ := List.mem_map.mp hs
    exact h entry hentry
  rw [pieces, hsplit, List.map_map]
  exact (List.map_congr_left fun s _ => String.ofList_toList).trans (List.map_id entries)

theorem present_pieces_joined (h : ∀ s ∈ entries, separator ∉ s.toList) :
    present (pieces separator (joined separator entries)) = present entries := by
  by_cases hne : entries = []
  · subst hne
    rw [joined, String.intercalate_nil, pieces]
    simp [present, trimmed]
  · rw [pieces_joined hne h]

theorem present_map_trimmed (entries : List String) :
    present (entries.map trimmed) = present entries := by
  rw [present, present, List.map_map]
  exact congrArg _ (List.map_congr_left fun s _ => trimmed_trimmed s)

theorem trimmed_blank_append (s : String) : trimmed (" " ++ s) = trimmed s := by
  rw [trimmed, trimmed, String.toList_append]
  show String.ofList (trim (' ' :: s.toList)) = _
  rw [trim, trimFront_cons, if_pos (by decide), ← trim]

theorem present_blanks (first : String) (rest : List String) :
    present (first :: rest.map (" " ++ ·)) = present (first :: rest) := by
  rw [present, present, List.map_cons, List.map_cons, List.map_map]
  exact congrArg (fun entries => (trimmed first :: entries).filter (· ≠ ""))
    (List.map_congr_left fun s _ => trimmed_blank_append s)

/-- A comma and a blank between entries are a comma, with a blank before each entry but the first. -/
theorem intercalate_comma_blank (first : String) (rest : List String) :
    ", ".intercalate (first :: rest) = joined ',' (first :: rest.map (" " ++ ·)) := by
  have hblank : ", " = String.singleton ',' ++ " " := by decide
  induction rest generalizing first with
  | nil => rw [joined, List.map_nil, String.intercalate_singleton, String.intercalate_singleton]
  | cons second rest ih =>
      have hrest := ih second
      rw [joined] at hrest ⊢
      rw [List.map_cons, String.intercalate_cons_cons, String.intercalate_cons_cons,
        String.intercalate_cons_append, ← hrest, hblank]
      simp only [String.append_assoc]

/-- Blanks behind the commas make no difference to what is read. -/
theorem present_pieces_intercalate (h : ∀ s ∈ entries, ',' ∉ s.toList) :
    present (pieces ',' (", ".intercalate entries)) = present entries := by
  cases entries with
  | nil => exact present_pieces_joined h
  | cons first rest =>
      rw [intercalate_comma_blank, present_pieces_joined, present_blanks]
      intro s hs
      rcases List.mem_cons.mp hs with rfl | hs
      · exact h s List.mem_cons_self
      · obtain ⟨entry, hentry, rfl⟩ := List.mem_map.mp hs
        rw [String.toList_append, List.mem_append, not_or]
        exact ⟨by decide, h entry (List.mem_cons_of_mem _ hentry)⟩

end Text

/-! ### The text of a list on a page -/

namespace Html

theorem entity?_eq_none {c : Char} (h : c ∉ markupChars) : entity? c = none := by
  unfold entity?
  split
  all_goals first
    | rfl
    | exact absurd (by decide) h

theorem escape_eq_self {s : String} (h : ∀ c ∈ s.toList, c ∉ markupChars) : escape s = s := by
  have hchar (c : Char) (hc : c ∉ markupChars) : escapeChar c = [c] := by
    rw [escapeChar, entity?_eq_none hc]
  rw [escape, List.flatMap_congr fun c hc => hchar c (h c hc), List.flatMap_singleton',
    String.ofList_toList]

theorem escape_intercalate (separator : String) (entries : List String) :
    escape (separator.intercalate entries) = (escape separator).intercalate (entries.map escape) := by
  induction entries with
  | nil => simp
  | cons first rest ih =>
      cases rest with
      | nil => simp
      | cons second rest =>
          rw [List.map_cons] at ih ⊢
          rw [List.map_cons, String.intercalate_cons_cons, String.intercalate_cons_cons,
            escape_append, escape_append, ih]

/-- What the formatter writes for a list of texts. -/
inductive PrintedList (entries : List String) : String → Prop where
  /-- The list by itself, where it is not shown as a work history or an education. -/
  | list {path : String} (hwork : path ∉ workPaths) (heducation : path ≠ educationPath) :
      PrintedList entries (format (some (.ofStrings entries)) path)
  /-- The list as the skills of a résumé. -/
  | skills (path : String) :
      PrintedList entries (format (some (Resume.skillsJson { skills := entries })) path)

theorem listTexts_map_str {entries : List String} (h : TrimmedEntries entries) :
    listTexts (entries.map Json.str) = entries := by
  have htexts : (entries.map Json.str).filterMap scalarText? = entries := by
    rw [List.filterMap_map]
    exact List.filterMap_some
  rw [listTexts, htexts, h.present_eq]

/-- Nothing is escaped in a list without characters of markup. -/
theorem PrintedList.eq_intercalate {entries : List String} {text : String}
    (h : PrintedList entries text) (hentries : TrimmedEntries entries)
    (hplain : ∀ s ∈ entries, ∀ c ∈ s.toList, c ∉ markupChars) :
    text = ", ".intercalate entries := by
  have hlist : listHtml (entries.map Json.str) = ", ".intercalate entries := by
    have hself : entries.map escape = entries :=
      (List.map_congr_left fun s hs => escape_eq_self (hplain s hs)).trans (List.map_id entries)
    rw [listHtml, listTexts_map_str hentries, escape_intercalate, hself]
    congr 1
  cases h with
  | list hwork heducation =>
      rw [← hlist]
      show formatList (entries.map Json.str) _ = _
      rw [formatList, if_neg hwork, if_neg heducation]
  | skills path => exact hlist

end Html

/-! ### The forms of a list -/

namespace Payload

variable {separator : Char} {entries : List String} {value value' : Json}

/-- The forms in which a list of texts stands in a payload. -/
inductive ListForm (separator : Char) (entries : List String) : Json → Prop where
  | array : ListForm separator entries (.ofStrings entries)
  | string : ListForm separator entries (.str (Text.joined separator entries))

/-- The forms in which skills stand in a payload. -/
inductive SkillsForm (entries : List String) : Json → Prop where
  | plain {value : Json} (h : ListForm ',' entries value) : SkillsForm entries value
  | raw {value : Json} (h : ListForm ',' entries value) (block : Json.Fields) :
      SkillsForm entries (.obj (block.insert Spelling.skillsRaw value))

theorem texts_ofStrings_eq_present (separator : Char) (entries : List String) :
    texts separator (.ofStrings entries) = Text.present entries := by
  rw [Json.ofStrings, texts, List.map_map]
  exact Text.present_map_trimmed entries

theorem ListForm.texts_eq (h : ListForm separator entries value)
    (hfree : ∀ s ∈ entries, separator ∉ s.toList) :
    texts separator value = Text.present entries := by
  cases h with
  | array => exact texts_ofStrings_eq_present separator entries
  | string => exact Text.present_pieces_joined hfree

theorem SkillsForm.read (h : SkillsForm entries value) (hfree : ∀ s ∈ entries, ',' ∉ s.toList) :
    value.isNull = false ∧ skills value = Text.present entries := by
  cases h with
  | plain h =>
      cases h with
      | array => exact ⟨rfl, ListForm.array.texts_eq hfree⟩
      | string => exact ⟨rfl, ListForm.string.texts_eq hfree⟩
  | raw h block =>
      refine ⟨rfl, ?_⟩
      rw [skills, Json.Fields.get?_insert, if_pos rfl]
      exact h.texts_eq hfree

/-! ### A change under one name -/

theorem values_insert_eq {spellings : List String} {key : String} (h : key ∉ spellings)
    (fields : Json.Fields) (value value' : Json) :
    values (fields.insert key value) spellings = values (fields.insert key value') spellings := by
  rw [← List.forall₂_eq_eq_eq]
  exact forall₂_values_insert (fun _ => rfl) (fun hkey => absurd hkey h) fields

theorem list_insert_congr (h : texts separator value = texts separator value')
    (item : Json.Fields) (spellings : List String) (key : String) :
    list (item.insert key value) spellings separator =
      list (item.insert key value') spellings separator := by
  refine list_congr ?_
  refine forall₂_values_insert ?_ (fun _ => h) item
  exact fun _ => rfl

theorem workItem_insert_congr {key : String} (hkey : key ∈ Spelling.bullets)
    (h : texts '\n' value = texts '\n' value') (item : Json.Fields) :
    workItem (item.insert key value) = workItem (item.insert key value') := by
  have hother : ∀ key ∈ Spelling.bullets, ∀ spellings ∈ workTexts, key ∉ spellings := by
    decide +kernel
  refine workItem_congr (fun spellings hspellings => ?_)
    (list_insert_congr h item Spelling.bullets key)
  exact values_insert_eq (hother key hkey spellings hspellings) item value value'

theorem educationItem_insert_congr {key : String} (hkey : key ∈ Spelling.coursework)
    (h : texts ',' value = texts ',' value') (item : Json.Fields) :
    educationItem (item.insert key value) = educationItem (item.insert key value') := by
  have hother : ∀ key ∈ Spelling.coursework, ∀ spellings ∈ educationTexts, key ∉ spellings := by
    decide +kernel
  refine educationItem_congr (fun spellings hspellings => ?_)
    (list_insert_congr h item Spelling.coursework key)
  exact values_insert_eq (hother key hkey spellings hspellings) item value value'

/-- A list of a payload may change as long as it is read alike. -/
theorem resume_insert_congr {key : String} (root : Json.Fields)
    (hother : key ∉ Spelling.profile ++ Spelling.summary)
    (hskills : key ∈ Spelling.skills → value.isNull = value'.isNull ∧ skills value = skills value')
    (hwork : key ∈ Spelling.work →
      SameItems (fun item item' => workItem item = workItem item') value value')
    (heducation : key ∈ Spelling.education →
      SameItems (fun item item' => educationItem item = educationItem item') value value') :
    resume (root.insert key value) = resume (root.insert key value') := by
  rw [List.mem_append, not_or] at hother
  refine resume_congr ?_ ?_ ?_ ?_ ?_
  · rw [object?, object?, values_insert_eq hother.1 root value value']
  · rw [first?, first?, values_insert_eq hother.2 root value value']
  · refine map_first?_congr ?_
    refine forall₂_values_insert ?_ hskills root
    exact fun _ => ⟨rfl, rfl⟩
  · exact map_objects_congr (fun _ _ h => h) (forall₂_values_insert .same hwork root)
  · exact map_objects_congr (fun _ _ h => h) (forall₂_values_insert .same heducation root)

/-- A payload with an item among others of an array. -/
def withItem (root : Json.Fields) (key : String) (before : List Json) (item : Json.Fields)
    (after : List Json) : Json :=
  .obj (root.insert key (.arr (before ++ .obj item :: after)))

theorem sameItems_at {same : Json.Fields → Json.Fields → Prop} {item item' : Json.Fields}
    (h : same item item') (before after : List Json) :
    SameItems same (.arr (before ++ .obj item :: after)) (.arr (before ++ .obj item' :: after)) := by
  have hsame (items : List Json) : List.Forall₂ (SameObject same) items items :=
    List.forall₂_same.mpr fun value _ => .same value
  exact .arr (List.rel_append (hsame before) (.cons (.obj h) (hsame after)))

theorem normalize_insert_skills {key : String} (hkey : key ∈ Spelling.skills) (root : Json.Fields)
    (h : value.isNull = value'.isNull ∧ skills value = skills value') :
    normalize (.obj (root.insert key value)) = normalize (.obj (root.insert key value')) := by
  have hother : ∀ key ∈ Spelling.skills, key ∉ Spelling.profile ++ Spelling.summary ∧
      key ∉ Spelling.work ∧ key ∉ Spelling.education := by decide +kernel
  obtain ⟨htexts, hwork, heducation⟩ := hother key hkey
  exact resume_insert_congr root htexts (fun _ => h) (fun hmem => absurd hmem hwork)
    fun hmem => absurd hmem heducation

theorem normalize_withItem_work {key : String} (hkey : key ∈ Spelling.work)
    {item item' : Json.Fields} (h : workItem item = workItem item') (root : Json.Fields)
    (before after : List Json) :
    normalize (withItem root key before item after) =
      normalize (withItem root key before item' after) := by
  have hother : ∀ key ∈ Spelling.work, key ∉ Spelling.profile ++ Spelling.summary ∧
      key ∉ Spelling.skills ∧ key ∉ Spelling.education := by decide +kernel
  obtain ⟨htexts, hskills, heducation⟩ := hother key hkey
  exact resume_insert_congr root htexts (fun hmem => absurd hmem hskills)
    (fun _ => sameItems_at h before after) fun hmem => absurd hmem heducation

theorem normalize_withItem_education {key : String} (hkey : key ∈ Spelling.education)
    {item item' : Json.Fields} (h : educationItem item = educationItem item') (root : Json.Fields)
    (before after : List Json) :
    normalize (withItem root key before item after) =
      normalize (withItem root key before item' after) := by
  have hother : ∀ key ∈ Spelling.education, key ∉ Spelling.profile ++ Spelling.summary ∧
      key ∉ Spelling.skills ∧ key ∉ Spelling.work := by decide +kernel
  obtain ⟨htexts, hskills, hwork⟩ := hother key hkey
  exact resume_insert_congr root htexts (fun hmem => absurd hmem hskills)
    (fun hmem => absurd hmem hwork) fun _ => sameItems_at h before after

/-! ### The only spelling of a list -/

variable {root item : Json.Fields} {key : String} {i : Nat}

theorem skills_of_only (h : Only root Spelling.skills key value) (hvalue : value.isNull = false) :
    (normalize (.obj root)).skills = skills value := by
  show (first? root Spelling.skills).elim [] skills = skills value
  rw [first?_of_holds ⟨0, values_of_only h⟩ hvalue, Option.elim_some]

theorem list_of_only {spellings : List String} (h : Only item spellings key value) :
    list item spellings separator = texts separator value := by
  rw [list, values_of_only h, List.map_cons, List.map_nil]
  by_cases hempty : texts separator value = []
  · rw [hempty]
    rfl
  · rw [List.find?_cons_of_pos (by simpa using hempty), Option.getD_some]

/-- The bullets of the position that is read from an item, if it has them under one spelling. -/
theorem bullets_of_only (hitem : (objects root Spelling.work)[i]? = some item)
    (h : Only item Spelling.bullets key value) :
    ((normalize (.obj root)).work[i]?).map (·.bullets) = some (texts '\n' value) := by
  show (((objects root Spelling.work).map workItem)[i]?).map (·.bullets) = _
  rw [List.getElem?_map, hitem, ← list_of_only h]
  rfl

/-- The courses of the course of study that is read from an item, if it has them under one
spelling. -/
theorem coursework_of_only (hitem : (objects root Spelling.education)[i]? = some item)
    (h : Only item Spelling.coursework key value) :
    ((normalize (.obj root)).education[i]?).map (·.coursework) = some (texts ',' value) := by
  show (((objects root Spelling.education).map educationItem)[i]?).map (·.coursework) = _
  rw [List.getElem?_map, hitem, ← list_of_only h]
  rfl

/-- The text of a list on a page is read as the list. -/
theorem texts_printed {text : String} (h : Html.PrintedList entries text)
    (hentries : TrimmedEntries entries)
    (hplain : ∀ s ∈ entries, ∀ c ∈ s.toList, c ≠ ',' ∧ c ∉ Html.markupChars) :
    texts ',' (.str text) = entries := by
  have hfree (s : String) (hs : s ∈ entries) : ',' ∉ s.toList :=
    fun hmem => (hplain s hs ',' hmem).1 rfl
  rw [h.eq_intercalate hentries fun s hs c hc => (hplain s hs c hc).2, texts,
    Text.present_pieces_intercalate hfree, hentries.present_eq]

end Payload

open Payload in
/-- **One list in many forms.** Skills, bullets and courses may stand in a payload as an array or as
one string, under any spelling and beside any others: the résumé is the same. Under their only
spelling they are the entries of the list in order, trimmed and without the empty ones. And the text
that a page shows for skills or courses, which are trimmed once they are normalized, is read as the
same list where it is given in its place, if no entry has a comma or a character that is escaped. -/
theorem normalize_listForm (root item : Json.Fields) (entries : List String) (i : Nat) :
    ((∀ s ∈ entries, ',' ∉ s.toList) → ∀ value, SkillsForm entries value →
      (∀ key ∈ Spelling.skills, ∀ value', SkillsForm entries value' →
        normalize (.obj (root.insert key value')) = normalize (.obj (root.insert key value))) ∧
      ∀ key, Only root Spelling.skills key value →
        (normalize (.obj root)).skills = Text.present entries) ∧
    ((∀ s ∈ entries, '\n' ∉ s.toList) → ∀ value, ListForm '\n' entries value →
      (∀ key ∈ Spelling.bullets, ∀ value', ListForm '\n' entries value' →
        ∀ work ∈ Spelling.work, ∀ before after,
          normalize (withItem root work before (item.insert key value') after) =
            normalize (withItem root work before (item.insert key value) after)) ∧
      ∀ key, Only item Spelling.bullets key value →
        (objects root Spelling.work)[i]? = some item →
        ((normalize (.obj root)).work[i]?).map (·.bullets) = some (Text.present entries)) ∧
    ((∀ s ∈ entries, ',' ∉ s.toList) → ∀ value, ListForm ',' entries value →
      (∀ key ∈ Spelling.coursework, ∀ value', ListForm ',' entries value' →
        ∀ education ∈ Spelling.education, ∀ before after,
          normalize (withItem root education before (item.insert key value') after) =
            normalize (withItem root education before (item.insert key value) after)) ∧
      ∀ key, Only item Spelling.coursework key value →
        (objects root Spelling.education)[i]? = some item →
        ((normalize (.obj root)).education[i]?).map (·.coursework) =
          some (Text.present entries)) ∧
    (TrimmedEntries entries → (∀ s ∈ entries, ∀ c ∈ s.toList, c ≠ ',' ∧ c ∉ Html.markupChars) →
      ∀ text key, Html.PrintedList entries text →
        (Only root Spelling.skills key (.str text) → (normalize (.obj root)).skills = entries) ∧
        (Only item Spelling.coursework key (.str text) →
          (objects root Spelling.education)[i]? = some item →
          ((normalize (.obj root)).education[i]?).map (·.coursework) = some entries)) := by
  refine ⟨?_, ?_, ?_, ?_⟩
  · intro hfree value hvalue
    obtain ⟨hnull, hread⟩ := hvalue.read hfree
    refine ⟨?_, ?_⟩
    · intro key hkey value' hvalue'
      obtain ⟨hnull', hread'⟩ := hvalue'.read hfree
      exact normalize_insert_skills hkey root
        ⟨hnull'.trans hnull.symm, hread'.trans hread.symm⟩
    · intro key honly
      exact (skills_of_only honly hnull).trans hread
  · intro hfree value hvalue
    have hread := hvalue.texts_eq hfree
    refine ⟨?_, ?_⟩
    · intro key hkey value' hvalue' work hwork before after
      have hsame := (hvalue'.texts_eq hfree).trans hread.symm
      exact normalize_withItem_work hwork (workItem_insert_congr hkey hsame item) root before after
    · intro key honly hitem
      exact (bullets_of_only hitem honly).trans (congrArg some hread)
  · intro hfree value hvalue
    have hread := hvalue.texts_eq hfree
    refine ⟨?_, ?_⟩
    · intro key hkey value' hvalue' education heducation before after
      have hsame := (hvalue'.texts_eq hfree).trans hread.symm
      exact normalize_withItem_education heducation (educationItem_insert_congr hkey hsame item)
        root before after
    · intro key honly hitem
      exact (coursework_of_only hitem honly).trans (congrArg some hread)
  · intro hentries hplain text key hprinted
    have hread := texts_printed hprinted hentries hplain
    refine ⟨?_, ?_⟩
    · intro honly
      exact (skills_of_only honly rfl).trans hread
    · intro honly hitem
      exact (coursework_of_only hitem honly).trans (congrArg some hread)

/-- Entries with blanks around them and an empty one, in each of the three lists; and the text that a
page shows for what is read from them. -/
theorem normalize_listForm_blanks :
    let entries := [" Lean ", "", "Rust"]
    let item : Json.Fields := [("courses", .str (Text.joined ',' entries)),
      ("highlights", .str (Text.joined '\n' entries))]
    let root : Json.Fields := [("Education", .arr [.obj item]),
      ("Skills", .obj [("raw", .ofStrings entries)]), ("experience", .arr [.null, .obj item])]
    let text := Html.format (some (.ofStrings ["Lean", "Rust"])) "skills.raw"
    let course : Json.Fields := [("coursework", .str text)]
    let back : Json.Fields := [("education", .arr [.obj course]), ("skills", .str text)]
    normalize (.obj (root.insert "skills" (.str (Text.joined ',' entries)))) =
        normalize (.obj (root.insert "skills" (.ofStrings entries))) ∧
      (normalize (.obj root)).skills = ["Lean", "Rust"] ∧
      ((normalize (.obj root)).work[0]?).map (·.bullets) = some ["Lean", "Rust"] ∧
      ((normalize (.obj root)).education[0]?).map (·.coursework) = some ["Lean", "Rust"] ∧
      (normalize (.obj back)).skills = ["Lean", "Rust"] ∧
      ((normalize (.obj back)).education[0]?).map (·.coursework) = some ["Lean", "Rust"] := by
  intro entries item root text course back
  have hpresent : Text.present entries = ["Lean", "Rust"] := by decide +kernel
  obtain ⟨hskills, hbullets, hcoursework, -⟩ := normalize_listForm root item entries 0
  have hfree : ∀ s ∈ entries, ',' ∉ s.toList := by decide +kernel
  obtain ⟨-, honlySkills⟩ := hskills hfree (.obj [("raw", .ofStrings entries)]) (.raw .array [])
  obtain ⟨hforms, -⟩ := hskills hfree _ (.plain .array)
  obtain ⟨-, honlyBullets⟩ := hbullets (by decide +kernel) _ .string
  obtain ⟨-, honlyCourses⟩ := hcoursework hfree _ .string
  obtain ⟨-, -, -, hback⟩ := normalize_listForm back course ["Lean", "Rust"] 0
  have hprinted : Html.PrintedList ["Lean", "Rust"] text :=
    .list (by decide +kernel) (by decide +kernel)
  have htrimmed : TrimmedEntries ["Lean", "Rust"] := by
    rw [← hpresent]
    exact trimmedEntries_present entries
  have hread := hback htrimmed (by simp [Html.markupChars]) text
  refine ⟨?_, ?_, ?_, ?_, ?_, ?_⟩
  · exact hforms "skills" List.mem_cons_self _ (.plain .string)
  · exact (honlySkills "Skills" ⟨rfl, rfl⟩).trans hpresent
  · exact (honlyBullets "highlights" ⟨rfl, rfl⟩ rfl).trans (congrArg some hpresent)
  · exact (honlyCourses "courses" ⟨rfl, rfl⟩ rfl).trans (congrArg some hpresent)
  · exact (hread "skills" hprinted).1 ⟨rfl, rfl⟩
  · exact (hread "coursework" hprinted).2 ⟨rfl, rfl⟩ rfl

end Vitae
