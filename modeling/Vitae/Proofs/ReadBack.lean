import Vitae.Json.Printer
import Vitae.Json.Reader
import Vitae.Resume.TemplateData
import Vitae.Service.PageRequest

/-!
# Texts that are read back

What the service answers can be sent to it again: the text of a value is read as this value
(`read?_text`), and so is the text of a request that holds it (`read_toJson`). This is said of
values without numbers (`Plain`), as the stored form of a résumé and its template data are
(`Resume.plain_toJson`, `Resume.plain_templateData`).

Members are put into an object in the order of their names while it is read, so it comes back as it
was only if that is the order in which it is written. That is why `Plain` asks for this order, and
why the members read so far are a prefix of all members in `finds_readMembers?`.

A text is read lexeme by lexeme, and none of the texts ends where a lexeme goes on. So each value is
read whatever follows it (`ReadBack`), and then one item or one member at a time.
-/

namespace Vitae

namespace Json

/-! ### Strings -/

/-- The four hexadecimal digits of an escaped character are read as its code point. -/
theorem exists_fourHex {c : Char} (h : breaksLines c = true) :
    ∃ i j k l, fourHex c.toNat = [i, j, k, l] ∧ codeUnit? i j k l = some c.toNat := by
  have hsmall : ∀ n < 0xA0, fourHex n = ['0', '0', Nat.digitChar (n / 16), Nat.digitChar (n % 16)] ∧
      codeUnit? '0' '0' (Nat.digitChar (n / 16)) (Nat.digitChar (n % 16)) = some n := by
    decide +kernel
  simp only [breaksLines, Bool.or_eq_true, Bool.and_eq_true, decide_eq_true_eq, beq_iff_eq] at h
  by_cases hc : c.toNat < 0xA0
  · exact ⟨_, _, _, _, hsmall c.toNat hc⟩
  · have hline : c.toNat = 0x2028 ∨ c.toNat = 0x2029 := by omega
    rcases hline with hline | hline <;> rw [hline] <;> exact ⟨_, _, _, _, rfl, by decide⟩

/-- A character as it is written is read as one code point, whatever follows it. -/
theorem scanString_quoteChar (units : List Nat) (c : Char) (rest : List Char) :
    scanString units (quoteChar c ++ rest) = scanString (c.toNat :: units) rest := by
  unfold quoteChar
  split
  · rename_i hc
    rcases hc with rfl | rfl <;> simp [scanString, shortEscape?]
  · rename_i hc
    obtain ⟨hquote, hbackslash⟩ := not_or.mp hc
    split
    · rename_i hbreak
      obtain ⟨i, j, k, l, hhex, hcode⟩ := exists_fourHex hbreak
      simp [hhex, scanString, hcode]
    · rename_i hplain
      have hlow : ¬ c.toNat < 0x20 := by
        intro h
        simp [breaksLines, h] at hplain
      rw [List.singleton_append, scanString, if_neg hlow]
      · exact hquote
      · exact fun _ _ _ _ _ h _ => hbackslash h
      · exact fun _ _ h _ => hbackslash h

theorem scanString_quoted (s rest : List Char) (units : List Nat) :
    scanString units (s.flatMap quoteChar ++ '\x22' :: rest) =
      some (units.reverse ++ s.map Char.toNat, rest) := by
  induction s generalizing units with
  | nil => simp [scanString]
  | cons c s ih =>
      rw [List.flatMap_cons, List.append_assoc, scanString_quoteChar, ih]
      simp

/-- The code points of a text hold no halves of surrogate pairs. -/
theorem joinSurrogates_toNat (s text : List Char) :
    joinSurrogates text (s.map Char.toNat) = some (text.reverse ++ s) := by
  have hvalid (c : Char) : ¬ (0xD800 ≤ c.toNat ∧ c.toNat ≤ 0xDFFF) := by
    have := c.valid
    simp only [UInt32.isValidChar, Nat.isValidChar] at this
    show ¬ (0xD800 ≤ c.val.toNat ∧ c.val.toNat ≤ 0xDFFF)
    omega
  induction s generalizing text with
  | nil => simp [joinSurrogates]
  | cons c s ih =>
      have hc := hvalid c
      cases s with
      | nil => simp [joinSurrogates, hc]
      | cons d s =>
          have hhigh : ¬ (0xD800 ≤ c.toNat ∧ c.toNat ≤ 0xDBFF) := by omega
          have hlow : ¬ (0xDC00 ≤ c.toNat ∧ c.toNat ≤ 0xDFFF) := by omega
          rw [List.map_cons, List.map_cons, joinSurrogates, if_neg hhigh, if_neg hlow,
            Char.ofNat_toNat, ← List.map_cons, ih]
          simp

/-- A string is read from its text, whatever follows. -/
theorem next?_quote (s : String) (rest : List Char) :
    Lexeme.next? ((quote s).toList ++ rest) = some (.string (some s), rest) := by
  have hnext : Lexeme.next? ('\x22' :: (s.toList.flatMap quoteChar ++ '\x22' :: rest)) =
      (scanString [] (s.toList.flatMap quoteChar ++ '\x22' :: rest)).map fun found =>
        (.string ((joinSurrogates [] found.1).map String.ofList), found.2) := rfl
  rw [quote, String.toList_ofList, List.cons_append, List.append_assoc, List.singleton_append,
    hnext, scanString_quoted]
  simp [joinSurrogates_toNat]

/-! ### Texts of arrays and objects -/

/-- The items of an array behind the first one. -/
def laterItems (items : List Json) : List Char :=
  items.flatMap fun item => ',' :: (text item).toList

/-- A member of an object. -/
def memberChars (field : String × Json) : List Char :=
  (quote field.1).toList ++ ':' :: (text field.2).toList

/-- The members of an object behind the first one. -/
def laterMembers (fields : Fields) : List Char :=
  fields.flatMap fun field => ',' :: memberChars field

theorem toList_intercalate_comma (first : String) (rest : List String) :
    (",".intercalate (first :: rest)).toList =
      first.toList ++ rest.flatMap fun s => ',' :: s.toList := by
  induction rest generalizing first with
  | nil => simp
  | cons second rest ih =>
      rw [String.intercalate_cons_cons, String.toList_append, String.toList_append, ih]
      simp

theorem toList_text_arr (item : Json) (items : List Json) :
    (text (.arr (item :: items))).toList =
      '[' :: ((text item).toList ++ (laterItems items ++ [']'])) := by
  have hmap (items : List Json) : itemTexts items = items.map text := by
    induction items with
    | nil => rfl
    | cons item items ih => rw [itemTexts, ih, List.map_cons]
  rw [text, hmap, List.map_cons, String.toList_append, String.toList_append,
    toList_intercalate_comma, List.flatMap_map]
  simp [laterItems]

theorem toList_text_obj (field : String × Json) (fields : Fields) :
    (text (.obj (field :: fields))).toList =
      '\x7b' :: (memberChars field ++ (laterMembers fields ++ ['\x7d'])) := by
  have hmap (fields : Fields) :
      fieldTexts fields = fields.map fun field => quote field.1 ++ ":" ++ text field.2 := by
    induction fields with
    | nil => rfl
    | cons field fields ih => rw [fieldTexts, ih, List.map_cons]
  rw [text, hmap, List.map_cons, String.toList_append, String.toList_append,
    toList_intercalate_comma, List.flatMap_map]
  simp [laterMembers, memberChars]

/-! ### Reading -/

/-- Whether a value holds no numbers, has the members of its objects in the order of their names,
and nests no deeper than `depth`. -/
inductive Plain : Nat → Json → Prop where
  | null {depth : Nat} : Plain depth .null
  | bool {depth : Nat} (b : Bool) : Plain depth (.bool b)
  | str {depth : Nat} (s : String) : Plain depth (.str s)
  | arr {depth : Nat} {items : List Json} (h : ∀ item ∈ items, Plain depth item) :
      Plain (depth + 1) (.arr items)
  | obj {depth : Nat} {fields : Fields} (hsorted : fields.Pairwise (·.1 < ·.1))
      (h : ∀ field ∈ fields, Plain depth field.2) : Plain (depth + 1) (.obj fields)

/-- Whether a value was read, and what is left of the text. -/
def Finds {bound : Nat} (found : Option (Reading bound)) (value : Json) (rest : List Char) : Prop :=
  ∃ reading, found = some reading ∧ reading.value = value ∧ reading.rest.val = rest

/-- Whether a value is read from its text, whatever follows. -/
def ReadBack (depth : Nat) (value : Json) : Prop :=
  ∀ rest, ∃ first s, Lexeme.next? ((text value).toList ++ rest) = some (first, s) ∧
    (first ≠ .closeBracket ∧ first ≠ .closeBrace) ∧ Finds (readValue? depth first s) value rest

/-! ### How an array and an object begin, one item, one member -/

section

variable {depth bound : Nat} {first l : Lexeme} {name : String} {s r t rest : List Char}
  {done : List Json} {members : Fields} {hs : s.length ≤ bound}

theorem finds_readValue?_nil_arr (hclose : Lexeme.next? s = some (.closeBracket, rest)) :
    Finds (readValue? (depth + 1) .openBracket s) (.arr []) rest := by
  rw [readValue?]
  split
  · rename_i h
    cases hclose.symm.trans h
  · rename_i h
    cases hclose.symm.trans h
    exact ⟨_, rfl, rfl, rfl⟩
  · rename_i hne h
    cases hclose.symm.trans h
    exact absurd rfl hne

theorem readValue?_openBracket (depth : Nat) (hnext : Lexeme.next? s = some (l, t))
    (hne : l ≠ .closeBracket) :
    ∃ ht, readValue? (depth + 1) .openBracket s = readItems? depth [] l t ht := by
  refine ⟨Nat.le_of_lt (length_lt_of_next? hnext), ?_⟩
  rw [readValue?]
  split
  · rename_i h
    cases hnext.symm.trans h
  · rename_i h
    cases hnext.symm.trans h
    exact absurd rfl hne
  · rename_i h
    cases hnext.symm.trans h
    rfl

theorem finds_readValue?_nil_obj (hclose : Lexeme.next? s = some (.closeBrace, rest)) :
    Finds (readValue? (depth + 1) .openBrace s) (.obj []) rest := by
  rw [readValue?]
  split
  · rename_i h
    cases hclose.symm.trans h
  · rename_i h
    cases hclose.symm.trans h
    exact ⟨_, rfl, rfl, rfl⟩
  · rename_i hne h
    cases hclose.symm.trans h
    exact absurd rfl hne

theorem readValue?_openBrace (depth : Nat) (hnext : Lexeme.next? s = some (l, t))
    (hne : l ≠ .closeBrace) :
    ∃ ht, readValue? (depth + 1) .openBrace s = readMembers? depth [] l t ht := by
  refine ⟨Nat.le_of_lt (length_lt_of_next? hnext), ?_⟩
  rw [readValue?]
  split
  · rename_i h
    cases hnext.symm.trans h
  · rename_i h
    cases hnext.symm.trans h
    exact absurd rfl hne
  · rename_i h
    cases hnext.symm.trans h
    rfl

/-- The last item of an array. -/
theorem finds_readItems?_of_close {item : Reading s.length}
    (hread : readValue? depth first s = some item)
    (hclose : Lexeme.next? item.rest.val = some (.closeBracket, rest)) :
    Finds (readItems? depth done first s hs) (.arr (item.value :: done).reverse) rest := by
  rw [readItems?, hread]
  dsimp only
  split
  · rename_i h
    cases hclose.symm.trans h
  · rename_i h
    cases hclose.symm.trans h
    exact ⟨_, rfl, rfl, rfl⟩
  · rename_i h
    exact absurd hclose (h _)

/-- An item of an array with another one behind it. -/
theorem readItems?_of_comma {item : Reading s.length} (hread : readValue? depth first s = some item)
    (hcomma : Lexeme.next? item.rest.val = some (.comma, r))
    (hnext : Lexeme.next? r = some (l, t)) :
    ∃ ht, readItems? depth done first s hs = readItems? depth (item.value :: done) l t ht := by
  have ht : t.length ≤ bound := by
    have := length_lt_of_next? hcomma
    have := length_lt_of_next? hnext
    have := item.rest.property
    omega
  refine ⟨ht, ?_⟩
  rw [readItems?, hread]
  dsimp only
  split
  · rename_i h
    cases hcomma.symm.trans h
    split
    · rename_i h2
      cases hnext.symm.trans h2
    · rename_i h2
      cases hnext.symm.trans h2
      rfl
  · rename_i h
    cases hcomma.symm.trans h
  · rename_i h _
    exact absurd hcomma (h _)

/-- The last member of an object. -/
theorem finds_readMembers?_of_close {item : Reading t.length} (hname : afterName? s = some (l, t))
    (hread : readValue? depth l t = some item)
    (hclose : Lexeme.next? item.rest.val = some (.closeBrace, rest)) :
    Finds (readMembers? depth members (.string (some name)) s hs)
      (.obj (members.insert name item.value)) rest := by
  rw [readMembers?]
  split
  · rename_i h
    cases hname.symm.trans h
  · rename_i h
    cases hname.symm.trans h
    rw [hread]
    dsimp only
    split
    · rename_i h2
      cases hclose.symm.trans h2
    · rename_i h2
      cases hclose.symm.trans h2
      exact ⟨_, rfl, rfl, rfl⟩
    · rename_i h2
      exact absurd hclose (h2 _)

/-- A member of an object with another one behind it. -/
theorem readMembers?_of_comma {item : Reading t.length} {u : List Char} {l2 : Lexeme}
    (name : String) (members : Fields) (hs : s.length ≤ bound)
    (hname : afterName? s = some (l, t)) (hread : readValue? depth l t = some item)
    (hcomma : Lexeme.next? item.rest.val = some (.comma, r))
    (hnext : Lexeme.next? r = some (l2, u)) :
    ∃ hu, readMembers? depth members (.string (some name)) s hs =
      readMembers? depth (members.insert name item.value) l2 u hu := by
  have hu : u.length ≤ bound := by
    have := length_lt_of_afterName? hname
    have := length_lt_of_next? hcomma
    have := length_lt_of_next? hnext
    have := item.rest.property
    omega
  refine ⟨hu, ?_⟩
  rw [readMembers?]
  split
  · rename_i h
    cases hname.symm.trans h
  · rename_i h
    cases hname.symm.trans h
    rw [hread]
    dsimp only
    split
    · rename_i h2
      cases hcomma.symm.trans h2
      split
      · rename_i h3
        cases hnext.symm.trans h3
      · rename_i h3
        cases hnext.symm.trans h3
        rfl
    · rename_i h2
      cases hcomma.symm.trans h2
    · rename_i h2 _
      exact absurd hcomma (h2 _)

end

/-! ### Items and members in a row -/

theorem finds_readItems? {depth : Nat} {item : Json} {items : List Json}
    (hitem : ReadBack depth item) (hitems : ∀ item ∈ items, ReadBack depth item) {bound : Nat}
    (done : List Json) {rest s : List Char} {first : Lexeme} (hs : s.length ≤ bound)
    (hnext : Lexeme.next? ((text item).toList ++ (laterItems items ++ ']' :: rest)) =
      some (first, s)) :
    Finds (readItems? depth done first s hs) (.arr (done.reverse ++ item :: items)) rest := by
  induction items generalizing item done s first with
  | nil =>
      obtain ⟨first', s', hnext', -, reading, hread, rfl, hrest⟩ := hitem (']' :: rest)
      obtain ⟨rfl, rfl⟩ := Prod.mk.inj (Option.some.inj (hnext.symm.trans hnext'))
      have hclose : Lexeme.next? reading.rest.val = some (.closeBracket, rest) := by
        rw [hrest]
        rfl
      rw [← List.reverse_cons]
      exact finds_readItems?_of_close hread hclose
  | cons second items ih =>
      obtain ⟨first', s', hnext', -, reading, hread, rfl, hrest⟩ :=
        hitem (laterItems (second :: items) ++ ']' :: rest)
      obtain ⟨rfl, rfl⟩ := Prod.mk.inj (Option.some.inj (hnext.symm.trans hnext'))
      have hcomma : Lexeme.next? reading.rest.val =
          some (.comma, (text second).toList ++ (laterItems items ++ ']' :: rest)) := by
        rw [hrest, laterItems, List.flatMap_cons, List.append_assoc]
        rfl
      obtain ⟨hsecond, hlater⟩ := List.forall_mem_cons.mp hitems
      obtain ⟨l, t, hsecondNext, -⟩ := hsecond (laterItems items ++ ']' :: rest)
      obtain ⟨ht, heq⟩ := readItems?_of_comma hread hcomma hsecondNext
      have hrow := ih hsecond hlater (reading.value :: done) ht hsecondNext
      rw [List.reverse_cons, List.append_assoc] at hrow
      exact heq ▸ hrow

/-- A member whose name comes after all others is put behind them. -/
theorem Fields.insert_of_forall_lt {fields : Fields} {name : String} {value : Json}
    (h : ∀ field ∈ fields, field.1 < name) :
    fields.insert name value = fields ++ [(name, value)] := by
  induction fields with
  | nil => rfl
  | cons field rest ih =>
      obtain ⟨hfirst, hrest⟩ := List.forall_mem_cons.mp h
      have hne : name ≠ field.1 := fun heq => String.lt_irrefl _ (heq ▸ hfirst)
      rw [Fields.insert, if_neg hne, if_neg (String.lt_asymm hfirst), ih hrest, List.cons_append]

/-- So it is in an object in the order of its names. -/
theorem Fields.insert_of_pairwise {done fields : Fields} {field : String × Json}
    (hsorted : (done ++ field :: fields).Pairwise (·.1 < ·.1)) :
    done.insert field.1 field.2 = done ++ [field] :=
  insert_of_forall_lt fun earlier hearlier =>
    (List.pairwise_append.mp hsorted).2.2 earlier hearlier field List.mem_cons_self

theorem finds_readMembers? {depth : Nat} {field : String × Json} {fields : Fields}
    (hfield : ReadBack depth field.2) (hfields : ∀ field ∈ fields, ReadBack depth field.2)
    {bound : Nat} (done : Fields) (hsorted : (done ++ field :: fields).Pairwise (·.1 < ·.1))
    {rest s : List Char} (hs : s.length ≤ bound)
    (hmember : s = ':' :: ((text field.2).toList ++ (laterMembers fields ++ '\x7d' :: rest))) :
    Finds (readMembers? depth done (.string (some field.1)) s hs) (.obj (done ++ field :: fields))
      rest := by
  induction fields generalizing field done s with
  | nil =>
      obtain ⟨l, t, hnext, -, reading, hread, hvalue, hrest⟩ := hfield ('\x7d' :: rest)
      have hname : afterName? s = some (l, t) := by
        rw [hmember]
        exact hnext
      have hclose : Lexeme.next? reading.rest.val = some (.closeBrace, rest) := by
        rw [hrest]
        rfl
      have hinsert := Fields.insert_of_pairwise hsorted
      rw [← hinsert, ← hvalue]
      exact finds_readMembers?_of_close hname hread hclose
  | cons second fields ih =>
      obtain ⟨l, t, hnext, -, reading, hread, hvalue, hrest⟩ :=
        hfield (laterMembers (second :: fields) ++ '\x7d' :: rest)
      have hname : afterName? s = some (l, t) := by
        rw [hmember]
        exact hnext
      have hcomma : Lexeme.next? reading.rest.val =
          some (.comma, (quote second.1).toList ++
            ':' :: ((text second.2).toList ++ (laterMembers fields ++ '\x7d' :: rest))) := by
        rw [hrest, laterMembers, List.flatMap_cons, memberChars]
        simp only [List.append_assoc, List.cons_append]
        rfl
      obtain ⟨hsecond, hlater⟩ := List.forall_mem_cons.mp hfields
      obtain ⟨hu, heq⟩ :=
        readMembers?_of_comma field.1 done hs hname hread hcomma (next?_quote second.1 _)
      have hinsert := Fields.insert_of_pairwise hsorted
      rw [List.append_cons] at hsorted
      have hrow := ih hsecond hlater (done ++ [field]) hsorted hu rfl
      rw [← List.append_cons] at hrow
      rw [heq, hvalue, hinsert]
      exact hrow

/-! ### Plain values -/

/-- A value that is plain is read from its text, whatever follows. -/
theorem readBack_of_plain {depth : Nat} {value : Json} (h : Plain depth value) :
    ReadBack depth value := by
  intro rest
  induction h generalizing rest with
  | null => exact ⟨.null, rest, rfl, by simp, _, by rw [readValue?], rfl, rfl⟩
  | bool b =>
      cases b with
      | true => exact ⟨.bool true, rest, rfl, by simp, _, by rw [readValue?], rfl, rfl⟩
      | false => exact ⟨.bool false, rest, rfl, by simp, _, by rw [readValue?], rfl, rfl⟩
  | str s =>
      refine ⟨.string (some s), rest, ?_, by simp, ⟨.str s, .all rest⟩, ?_, rfl, rfl⟩
      · rw [text]
        exact next?_quote s rest
      · rw [readValue?]
        rfl
  | @arr depth items _ ih =>
      cases items with
      | nil =>
          have hclose : Lexeme.next? (']' :: rest) = some (.closeBracket, rest) := rfl
          exact ⟨.openBracket, ']' :: rest, rfl, by simp, finds_readValue?_nil_arr hclose⟩
      | cons item items =>
          have hitem : ReadBack depth item := ih item List.mem_cons_self
          obtain ⟨l, t, hnext, ⟨hne, -⟩, -⟩ := hitem (laterItems items ++ ']' :: rest)
          obtain ⟨ht, heq⟩ := readValue?_openBracket depth hnext hne
          have hitems : ∀ item ∈ items, ReadBack depth item := fun other hother =>
            ih other (List.mem_cons_of_mem _ hother)
          refine ⟨.openBracket, (text item).toList ++ (laterItems items ++ ']' :: rest), ?_,
            by simp, heq ▸ finds_readItems? hitem hitems [] ht hnext⟩
          rw [toList_text_arr]
          simp only [List.append_assoc, List.cons_append]
          rfl
  | @obj depth fields hsorted _ ih =>
      cases fields with
      | nil =>
          have hclose : Lexeme.next? ('\x7d' :: rest) = some (.closeBrace, rest) := rfl
          exact ⟨.openBrace, '\x7d' :: rest, rfl, by simp, finds_readValue?_nil_obj hclose⟩
      | cons field fields =>
          have hfield : ReadBack depth field.2 := ih field List.mem_cons_self
          obtain ⟨ht, heq⟩ := readValue?_openBrace depth
            (next?_quote field.1 (':' :: ((text field.2).toList ++
              (laterMembers fields ++ '\x7d' :: rest)))) (by simp)
          have hfields : ∀ field ∈ fields, ReadBack depth field.2 := fun other hother =>
            ih other (List.mem_cons_of_mem _ hother)
          refine ⟨.openBrace, _, ?_, by simp,
            heq ▸ finds_readMembers? hfield hfields [] hsorted ht rfl⟩
          rw [toList_text_obj, memberChars]
          simp only [List.append_assoc, List.cons_append]
          rfl

/-- A text of a value that is plain is read as this value. -/
theorem read?_text {value : Json} (h : Plain maxDepth value) :
    read? (text value).toList = some (value, []) := by
  obtain ⟨first, s, hnext, -, reading, hread, rfl, hrest⟩ := readBack_of_plain h []
  rw [List.append_nil] at hnext
  rw [read?, hnext]
  dsimp only
  rw [hread, Option.map_some, hrest]

/-! ### Which values are plain -/

theorem Fields.pairwise_insert {fields : Fields} (name : String) (value : Json)
    (h : fields.Pairwise (·.1 < ·.1)) : (fields.insert name value).Pairwise (·.1 < ·.1) := by
  induction fields with
  | nil => exact List.pairwise_singleton _ _
  | cons field rest ih =>
      obtain ⟨hfirst, hrest⟩ := List.pairwise_cons.mp h
      unfold insert
      split
      · rename_i heq
        exact List.pairwise_cons.mpr ⟨heq ▸ hfirst, hrest⟩
      · rename_i hne
        split
        · rename_i hlt
          refine List.pairwise_cons.mpr ⟨List.forall_mem_cons.mpr ⟨hlt, ?_⟩, h⟩
          exact fun other hother => String.lt_trans hlt (hfirst other hother)
        · rename_i hle
          refine List.pairwise_cons.mpr ⟨fun other hother => ?_, ih hrest⟩
          rcases mem_insert hother with rfl | hother
          · exact Std.lt_of_le_of_ne (String.not_lt.mp hle) (Ne.symm hne)
          · exact hfirst other hother

/-- An object given field by field has its members in the order of their names. -/
theorem plain_ofFields {depth : Nat} {entries : List (String × Json)}
    (h : ∀ entry ∈ entries, Plain depth entry.2) : Plain (depth + 1) (.ofFields entries) := by
  refine .obj ?_ fun field hfield => h field (Fields.mem_of_mem_ofList hfield)
  suffices hfold : ∀ fields : Fields, fields.Pairwise (·.1 < ·.1) →
      (entries.foldl (fun fields entry => fields.insert entry.1 entry.2) fields).Pairwise
        (·.1 < ·.1) from hfold [] .nil
  clear h
  induction entries with
  | nil => exact fun _ h => h
  | cons entry rest ih => exact fun fields h => ih _ (Fields.pairwise_insert _ _ h)

theorem plain_ofStrings {depth : Nat} (strings : List String) :
    Plain (depth + 1) (.ofStrings strings) := by
  refine .arr fun item hitem => ?_
  obtain ⟨s, -, rfl⟩ := List.mem_map.mp hitem
  exact .str s

end Json

/-! ### The forms of a résumé -/

section

open Json (Plain plain_ofFields plain_ofStrings)

theorem Contact.plain_toJson {depth : Nat} (contact : Contact) :
    Plain (depth + 1) contact.toJson := by
  refine plain_ofFields ?_
  simp only [List.forall_mem_cons]
  exact ⟨.str _, .str _, .str _, .str _, List.forall_mem_nil _⟩

theorem Profile.plain_toJson {depth : Nat} (profile : Profile) :
    Plain (depth + 2) profile.toJson := by
  refine plain_ofFields ?_
  simp only [List.forall_mem_cons]
  exact ⟨.str _, .str _, profile.contact.plain_toJson, List.forall_mem_nil _⟩

theorem WorkItem.plain_toJson {depth : Nat} (item : WorkItem) : Plain (depth + 2) item.toJson := by
  refine plain_ofFields ?_
  simp only [List.forall_mem_cons]
  exact ⟨.str _, .str _, .str _, .str _, .str _, .str _, plain_ofStrings _, List.forall_mem_nil _⟩

theorem EducationItem.plain_toJson {depth : Nat} (item : EducationItem) :
    Plain (depth + 2) item.toJson := by
  refine plain_ofFields ?_
  simp only [List.forall_mem_cons]
  exact ⟨.str _, .str _, .str _, .str _, plain_ofStrings _, List.forall_mem_nil _⟩

theorem Html.plain_safe {depth : Nat} (markup : String) : Plain (depth + 1) (Html.safe markup) :=
  .obj (List.pairwise_singleton _ _) (List.forall_mem_singleton.mpr (.str markup))

namespace Resume

variable {depth : Nat} (resume : Resume)

theorem plain_summaryJson : Plain (depth + 1) resume.summaryJson := by
  refine plain_ofFields ?_
  simp only [List.forall_mem_cons]
  exact ⟨.str _, List.forall_mem_nil _⟩

theorem plain_skillsJson : Plain (depth + 2) resume.skillsJson := by
  refine plain_ofFields ?_
  simp only [List.forall_mem_cons]
  exact ⟨plain_ofStrings _, List.forall_mem_nil _⟩

theorem plain_workJson : Plain (depth + 3) (.arr resume.workJson) := by
  refine .arr fun value hvalue => ?_
  obtain ⟨item, -, rfl⟩ := List.mem_map.mp hvalue
  exact item.plain_toJson

theorem plain_educationJson : Plain (depth + 3) (.arr resume.educationJson) := by
  refine .arr fun value hvalue => ?_
  obtain ⟨item, -, rfl⟩ := List.mem_map.mp hvalue
  exact item.plain_toJson

/-- The stored form of a résumé is plain. -/
theorem plain_toJson : Plain (depth + 4) resume.toJson := by
  refine plain_ofFields ?_
  simp only [List.forall_mem_cons]
  exact ⟨resume.profile.plain_toJson, resume.plain_summaryJson, resume.plain_skillsJson,
    resume.plain_workJson, resume.plain_educationJson, List.forall_mem_nil _⟩

/-- So are its template data. -/
theorem plain_templateData : Plain (depth + 4) resume.templateData := by
  refine plain_ofFields ?_
  simp only [List.forall_mem_cons]
  exact ⟨resume.profile.plain_toJson, resume.profile.plain_toJson, resume.plain_summaryJson,
    resume.plain_skillsJson, resume.plain_workJson, resume.plain_workJson, Html.plain_safe _,
    resume.plain_educationJson, Html.plain_safe _, List.forall_mem_nil _⟩

end Resume

end

/-! ### Requests for a page -/

namespace Service

open Json (Lexeme)

/-- A request for a page as an object, with its members in the order of their names. -/
def PageRequest.toJson (content : PageRequest) : Json :=
  .obj [("normalize", .bool content.normalize), ("resume", content.resume),
    ("template", .str content.template)]

namespace Draft

variable {draft draft' : Draft} {name : String} {l first : Lexeme} {s t r u : List Char}
  {left : Json.Rest t.length}

/-- A member with another one behind it. -/
theorem readMembers_of_comma (hknown : (Member.ofName? name).any draft.has = false)
    (hname : Json.afterName? s = some (l, t))
    (hread : draft.readNamed (Member.ofName? name) l t = .ok (draft', left))
    (hcomma : Lexeme.next? left.val = some (.comma, r)) (hnext : Lexeme.next? r = some (first, u)) :
    draft.readMembers (.string (some name)) s = draft'.readMembers first u := by
  rw [readMembers]
  simp only [hknown, Bool.false_eq_true, if_false]
  split
  · rename_i h
    cases hname.symm.trans h
  · rename_i h
    cases hname.symm.trans h
    rw [hread]
    dsimp only
    split
    · rename_i h2
      cases hcomma.symm.trans h2
      split
      · rename_i h3
        cases hnext.symm.trans h3
      · rename_i h3
        cases hnext.symm.trans h3
        rfl
    · rename_i h2
      cases hcomma.symm.trans h2
    · rename_i h2 _
      exact absurd hcomma (h2 _)

/-- The last member. -/
theorem readMembers_of_close (hknown : (Member.ofName? name).any draft.has = false)
    (hname : Json.afterName? s = some (l, t))
    (hread : draft.readNamed (Member.ofName? name) l t = .ok (draft', left))
    (hclose : Lexeme.next? left.val = some (.closeBrace, r)) :
    draft.readMembers (.string (some name)) s = .ok draft' := by
  rw [readMembers]
  simp only [hknown, Bool.false_eq_true, if_false]
  split
  · rename_i h
    cases hname.symm.trans h
  · rename_i h
    cases hname.symm.trans h
    rw [hread]
    dsimp only
    split
    · rename_i h2
      cases hclose.symm.trans h2
    · rfl
    · rename_i h2
      exact absurd hclose (h2 _)

end Draft

/-- A request with a plain payload is read from its text. -/
theorem read_toJson {content : PageRequest} (h : Json.Plain Draft.payloadDepth content.resume) :
    PageRequest.read content.toJson.text.toList = .ok content := by
  obtain ⟨template, resume, normalize⟩ := content
  let close : List Char := ['\x7d']
  let afterResume : List Char :=
    ',' :: ((Json.quote "template").toList ++ ':' :: ((Json.text (.str template)).toList ++ close))
  let afterNormalize : List Char :=
    ',' :: ((Json.quote "resume").toList ++ ':' :: (resume.text.toList ++ afterResume))
  have htext : (PageRequest.toJson ⟨template, resume, normalize⟩).text.toList =
      '\x7b' :: ((Json.quote "normalize").toList ++
        ':' :: ((Json.text (.bool normalize)).toList ++ afterNormalize)) := by
    rw [PageRequest.toJson, Json.toList_text_obj]
    simp only [Json.memberChars, Json.laterMembers, List.flatMap_cons, List.flatMap_nil,
      List.append_assoc, List.cons_append, List.nil_append, afterNormalize, afterResume, close]
  have hnormalize :
      Json.afterName? (':' :: ((Json.text (.bool normalize)).toList ++ afterNormalize)) =
        some (.bool normalize, afterNormalize) := by
    cases normalize <;> rfl
  obtain ⟨first, s, hnext, -, reading, hread, rfl, hrest⟩ := Json.readBack_of_plain h afterResume
  have hresume : Json.afterName? (':' :: (reading.value.text.toList ++ afterResume)) =
      some (first, s) := hnext
  have htemplate : Json.afterName? (':' :: ((Json.text (.str template)).toList ++ close)) =
      some (.string (some template), close) := by
    rw [Json.text]
    exact Json.next?_quote template close
  have hnamed (draft : Draft) : draft.readNamed (Member.ofName? "resume") first s =
      .ok ({ draft with resume := some reading.value }, reading.rest) := by
    show draft.read .resume first s = _
    rw [Draft.read, hread]
  have hcomma : Lexeme.next? reading.rest.val =
      some (.comma, (Json.quote "template").toList ++
        ':' :: ((Json.text (.str template)).toList ++ close)) := by
    rw [hrest]
    rfl
  have hopen : Lexeme.next? ('\x7b' :: ((Json.quote "normalize").toList ++
      ':' :: ((Json.text (.bool normalize)).toList ++ afterNormalize))) =
        some (.openBrace, (Json.quote "normalize").toList ++
          ':' :: ((Json.text (.bool normalize)).toList ++ afterNormalize)) := rfl
  rw [htext, PageRequest.read, hopen]
  dsimp only
  rw [Json.next?_quote]
  dsimp only
  rw [Draft.readMembers_of_comma rfl hnormalize rfl rfl (Json.next?_quote "resume" _),
    Draft.readMembers_of_comma rfl hresume (hnamed _) hcomma (Json.next?_quote "template" _),
    Draft.readMembers_of_close rfl htemplate rfl rfl]
  rfl

end Service

end Vitae
