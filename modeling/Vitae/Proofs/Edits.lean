import Mathlib.Data.List.Nodup
import Mathlib.Data.List.Pairwise
import Mathlib.Logic.Relation
import Vitae.Proofs.FieldSpellings

/-!
# Edits that make no difference

Payloads of different ages name one and the same field differently and keep names that nothing
reads. An `Edit` is one step between two such payloads: in one of the objects that are read, a field
gives up the only spelling that it has in use for another one of its spellings, or a name that is no
spelling of a field of this object comes or goes. `normalize_respelled` says that any number of
edits, wherever they are made, make no difference to the résumé.

An edit is made with regard to one field, and it must not be seen by another. That is genuinely
needed of the lists of spellings: if a field of an object had a spelling of another one, then
changing the other for it would be read as a change of both. `Kind.nodup_spellings` says that no
two fields of an object share a spelling, and every case of `Edit.hasSameFields` in which the edited
field is another one rests on it. It is a fact about each kind of object for itself, since the same
names do stand for different fields in different objects.
-/

namespace Vitae

/-! ### Objects without a name -/

namespace Json.Fields

/-- The object without the values of a name. -/
def without (name : String) (fields : Fields) : Fields := fields.filter (·.1 ≠ name)

theorem get?_without (fields : Fields) (name other : String) :
    (fields.without name).get? other = if other = name then none else fields.get? other := by
  induction fields with
  | nil => simp [without]
  | cons field rest ih =>
      obtain ⟨first, value⟩ := field
      unfold without at ih ⊢
      rw [List.filter_cons]
      by_cases hfirst : first = name
      · subst hfirst
        rw [if_neg (by simp), ih, get?_cons]
        by_cases hother : other = first <;> simp [hother]
      · rw [if_pos (by simpa using hfirst), get?_cons, get?_cons, ih]
        by_cases hother : other = first
        · subst hother
          simp [hfirst]
        · simp [hother]

end Json.Fields

namespace Payload

/-! ### The objects of a payload and their fields -/

/-- The kinds of objects that are read. -/
inductive Kind where
  | resume
  | profile
  | contact
  | summary
  | skills
  | position
  | course
  deriving DecidableEq

/-- What is looked for under the spellings of a field. -/
inductive Content where
  /-- A text or a list of texts. -/
  | plain
  /-- An object. -/
  | object (kind : Kind)
  /-- A list of objects. -/
  | items (kind : Kind)
  deriving DecidableEq

/-- A field of an object. -/
structure Field where
  spellings : List String
  content : Content
  deriving DecidableEq

/-- The fields of the objects of each kind. -/
def Kind.fields : Kind → List Field
  | .resume =>
    [⟨Spelling.profile, .object .profile⟩, ⟨Spelling.summary, .object .summary⟩,
      ⟨Spelling.skills, .object .skills⟩, ⟨Spelling.work, .items .position⟩,
      ⟨Spelling.education, .items .course⟩]
  | .profile => ⟨Spelling.contact, .object .contact⟩ :: profileFields.map (⟨·, .plain⟩)
  | .contact => contactFields.map (⟨·, .plain⟩)
  | .summary => [⟨[Spelling.summaryText], .plain⟩]
  | .skills => [⟨[Spelling.skillsRaw], .plain⟩]
  | .position => workFields.map (⟨·, .plain⟩)
  | .course => educationFields.map (⟨·, .plain⟩)

/-- No two fields of an object share a spelling, and none has the same spelling twice. -/
theorem Kind.nodup_spellings (kind : Kind) : (kind.fields.flatMap Field.spellings).Nodup := by
  cases kind <;> decide

theorem Kind.nodup_of_mem {kind : Kind} {field : Field} (h : field ∈ kind.fields) :
    field.spellings.Nodup :=
  (List.nodup_flatMap.mp kind.nodup_spellings).1 field h

/-- A spelling of one field is no spelling of another. -/
theorem Kind.notMem_spellings {kind : Kind} {field other : Field} (h : field ∈ kind.fields)
    (hother : other ∈ kind.fields) (hne : other ≠ field) {key : String}
    (hkey : key ∈ field.spellings) : key ∉ other.spellings := by
  have hdisjoint := (List.nodup_flatMap.mp kind.nodup_spellings).2
  have : Std.Symm (Function.onFun List.Disjoint Field.spellings) :=
    ⟨fun _ _ => List.disjoint_symm⟩
  exact fun hmem => hdisjoint.forall hother h hne hmem hkey

/-! ### Edits -/

/-- Whether a name is no spelling of a field in objects of a kind. -/
def Kind.Unread (kind : Kind) (key : String) : Prop := ∀ field ∈ kind.fields, key ∉ field.spellings

instance (kind : Kind) (key : String) : Decidable (kind.Unread key) :=
  List.decidableBAll (fun field : Field => key ∉ field.spellings) kind.fields

/-- One edit of an object of a kind, or of an object within. -/
inductive Edit : Kind → Json.Fields → Json.Fields → Prop where
  /-- The only spelling of a field that is in use is changed for another one. -/
  | rename {kind : Kind} {fields : Json.Fields} (field : Field) (key key' : String) {value : Json}
      (hfield : field ∈ kind.fields) (hkey : key ∈ field.spellings) (hkey' : key' ∈ field.spellings)
      (hvalue : fields.get? key = some value)
      (honly : ∀ other ∈ field.spellings, other ≠ key → fields.get? other = none) :
      Edit kind fields ((fields.without key).insert key' value)
  /-- A name that nothing reads gets a value. -/
  | add {kind : Kind} {fields : Json.Fields} (key : String) (value : Json)
      (hunread : kind.Unread key) : Edit kind fields (fields.insert key value)
  /-- A name that nothing reads is removed. -/
  | remove {kind : Kind} {fields : Json.Fields} (key : String) (hunread : kind.Unread key) :
      Edit kind fields (fields.without key)
  /-- There is an edit of an object that stands under a spelling of a field. -/
  | object {kind : Kind} {fields block block' : Json.Fields} (inner : Kind)
      (spellings : List String) (key : String)
      (hfield : ⟨spellings, .object inner⟩ ∈ kind.fields) (hkey : key ∈ spellings)
      (hvalue : fields.get? key = some (.obj block)) (hedit : Edit inner block block') :
      Edit kind fields (fields.insert key (.obj block'))
  /-- There is an edit of an object in the list under a spelling of a field. -/
  | item {kind : Kind} {fields block block' : Json.Fields} (inner : Kind)
      (spellings : List String) (key : String) (before after : List Json)
      (hfield : ⟨spellings, .items inner⟩ ∈ kind.fields) (hkey : key ∈ spellings)
      (hvalue : fields.get? key = some (.arr (before ++ .obj block :: after)))
      (hedit : Edit inner block block') :
      Edit kind fields (fields.insert key (.arr (before ++ .obj block' :: after)))

/-- Any number of edits. -/
abbrev Edits (kind : Kind) : Json.Fields → Json.Fields → Prop := Relation.ReflTransGen (Edit kind)

/-! ### What an edit leaves the same -/

variable {fields fields' : Json.Fields}

/-- Whether two objects of a kind say the same. -/
def Kind.Same : Kind → Json.Fields → Json.Fields → Prop
  | .resume => SameResume
  | .profile => SameProfile
  | .contact => SameFields contactFields
  | .summary => SameFields [[Spelling.summaryText]]
  | .skills => SameFields [[Spelling.skillsRaw]]
  | .position => SameFields workFields
  | .course => SameFields educationFields

/-- Whether two values say the same. -/
def Content.Same : Content → Json → Json → Prop
  | .plain => Eq
  | .object kind => SameObject kind.Same
  | .items kind => SameItems kind.Same

/-- Whether two objects of a kind have the same values in all fields. -/
def Kind.HasSameFields (kind : Kind) (fields fields' : Json.Fields) : Prop :=
  ∀ field ∈ kind.fields, SameField field.content.Same field.spellings fields fields'

theorem Content.same_refl (content : Content) (value : Json) : content.Same value value := by
  cases content with
  | plain => rfl
  | object kind => exact .same value
  | items kind => exact .same value

theorem sameFields_of_plain {groups : List (List String)}
    (h : ∀ field ∈ groups.map fun spellings => (⟨spellings, .plain⟩ : Field),
      SameField field.content.Same field.spellings fields fields') :
    SameFields groups fields fields' :=
  fun _ hmem => h _ (List.mem_map_of_mem hmem)

/-- Objects say the same if they do so field by field. -/
theorem Kind.HasSameFields.same {kind : Kind} (h : kind.HasSameFields fields fields') :
    kind.Same fields fields' := by
  cases kind with
  | resume =>
      exact ⟨h ⟨Spelling.profile, .object .profile⟩ (by decide),
        h ⟨Spelling.summary, .object .summary⟩ (by decide),
        h ⟨Spelling.skills, .object .skills⟩ (by decide),
        h ⟨Spelling.work, .items .position⟩ (by decide),
        h ⟨Spelling.education, .items .course⟩ (by decide)⟩
  | profile =>
      exact ⟨sameFields_of_plain fun field hmem => h field (List.mem_cons_of_mem _ hmem),
        h ⟨Spelling.contact, .object .contact⟩ List.mem_cons_self⟩
  | contact => exact sameFields_of_plain h
  | summary => exact sameFields_of_plain h
  | skills => exact sameFields_of_plain h
  | position => exact sameFields_of_plain h
  | course => exact sameFields_of_plain h

/-- A field whose spellings have the values that they had says the same. -/
theorem SameField.of_get?_eq {content : Content} {spellings : List String}
    (h : ∀ key ∈ spellings, fields'.get? key = fields.get? key) :
    SameField content.Same spellings fields fields' := by
  refine .kept fun key hkey => ?_
  rw [h key hkey]
  cases fields.get? key with
  | none => exact .none
  | some value => exact .some (content.same_refl value)

theorem only_of_forall {spellings : List String} {key : String} {value : Json}
    (hnodup : spellings.Nodup) (hkey : key ∈ spellings) (hvalue : fields.get? key = some value)
    (honly : ∀ other ∈ spellings, other ≠ key → fields.get? other = none) :
    Only fields spellings key value := by
  refine ⟨?_, hvalue⟩
  have hfilter : spellings.filter (fun other => (fields.get? other).isSome) =
      spellings.filter (· == key) := by
    refine List.filter_congr fun other hother => ?_
    by_cases heq : other = key
    · simp [heq, hvalue]
    · simp [heq, honly other hother heq]
  rw [hfilter, List.filter_beq, List.count_eq_one_of_mem hnodup hkey, List.replicate_one]

/-- A value that stands under a spelling of a field is set to one that says the same. -/
theorem Kind.hasSameFields_insert {kind : Kind} {field : Field} {key : String} {value value' : Json}
    (hfield : field ∈ kind.fields) (hkey : key ∈ field.spellings)
    (hvalue : fields.get? key = some value) (hsame : field.content.Same value value') :
    kind.HasSameFields fields (fields.insert key value') := by
  intro other hother
  by_cases heq : other = field
  · subst heq
    refine .kept fun name _ => ?_
    rw [Json.Fields.get?_insert]
    split
    · rename_i hname
      rw [hname, hvalue]
      exact .some hsame
    · cases fields.get? name with
      | none => exact .none
      | some kept => exact .some (other.content.same_refl kept)
  · have hshared := Kind.notMem_spellings hfield hother heq hkey
    refine .of_get?_eq fun name hname => ?_
    rw [Json.Fields.get?_insert, if_neg (ne_of_mem_of_not_mem hname hshared)]

theorem SameItems.item {same : Json.Fields → Json.Fields → Prop} (h : same fields fields')
    (before after : List Json) :
    SameItems same (.arr (before ++ .obj fields :: after))
      (.arr (before ++ .obj fields' :: after)) := by
  have hkept (items : List Json) : List.Forall₂ (SameObject same) items items :=
    List.forall₂_same.mpr fun value _ => .same value
  exact .arr (List.rel_append (hkept before) (.cons (.obj h) (hkept after)))

/-- An edit leaves every field of the object the same. -/
theorem Edit.hasSameFields {kind : Kind} (h : Edit kind fields fields') :
    kind.HasSameFields fields fields' := by
  induction h with
  | rename field key key' hfield hkey hkey' hvalue honly =>
      intro other hother
      by_cases heq : other = field
      · subst heq
        have hnodup := Kind.nodup_of_mem hother
        refine .renamed key key' (only_of_forall hnodup hkey hvalue honly)
          (only_of_forall hnodup hkey' ?_ fun name hname hne => ?_) (other.content.same_refl _)
        · rw [Json.Fields.get?_insert, if_pos rfl]
        · rw [Json.Fields.get?_insert, if_neg hne, Json.Fields.get?_without]
          split
          · rfl
          · rename_i hold
            exact honly name hname hold
      · -- neither the spelling that goes nor the one that comes is one of another field
        have hold := Kind.notMem_spellings hfield hother heq hkey
        have hnew := Kind.notMem_spellings hfield hother heq hkey'
        refine .of_get?_eq fun name hname => ?_
        rw [Json.Fields.get?_insert, if_neg (ne_of_mem_of_not_mem hname hnew),
          Json.Fields.get?_without, if_neg (ne_of_mem_of_not_mem hname hold)]
  | add key value hunread =>
      intro field hfield
      refine .of_get?_eq fun name hname => ?_
      rw [Json.Fields.get?_insert, if_neg (ne_of_mem_of_not_mem hname (hunread field hfield))]
  | remove key hunread =>
      intro field hfield
      refine .of_get?_eq fun name hname => ?_
      rw [Json.Fields.get?_without, if_neg (ne_of_mem_of_not_mem hname (hunread field hfield))]
  | object inner spellings key hfield hkey hvalue _ ih =>
      exact Kind.hasSameFields_insert hfield hkey hvalue (.obj ih.same)
  | item inner spellings key before after hfield hkey hvalue _ ih =>
      exact Kind.hasSameFields_insert hfield hkey hvalue (.item ih.same before after)

/-- Each edit gives an object that says the same as a résumé. -/
theorem Edit.sameResume (h : Edit .resume fields fields') : SameResume fields fields' :=
  h.hasSameFields.same

/-- The spellings that are in use. -/
def inUse (fields : Json.Fields) (spellings : List String) : List String :=
  spellings.filter fun key => (fields.get? key).isSome

theorem SameField.length_inUse {same : Json → Json → Prop} {spellings : List String}
    (h : SameField same spellings fields fields') :
    (inUse fields' spellings).length = (inUse fields spellings).length := by
  cases h with
  | kept h =>
      refine congrArg List.length (List.filter_congr fun key hkey => ?_)
      have hpair := h key hkey
      generalize fields.get? key = value at hpair ⊢
      generalize fields'.get? key = value' at hpair ⊢
      cases hpair with
      | some _ => rfl
      | none => rfl
  | renamed _ _ hbefore hafter _ => rw [inUse, inUse, hafter.inUse, hbefore.inUse]; rfl

/-- A field has as many spellings in use after any number of edits as before. So where one of them
is in use alone, one is alone after any other edits as well: edits that can be made at once can be
made one after another, in whatever order. -/
theorem Edits.length_inUse {kind : Kind} (h : Edits kind fields fields') {field : Field}
    (hfield : field ∈ kind.fields) :
    (inUse fields' field.spellings).length = (inUse fields field.spellings).length := by
  induction h with
  | refl => rfl
  | tail _ hedit ih => exact (hedit.hasSameFields field hfield).length_inUse.trans ih

end Payload

/-- **A spelling is as good as another.** Any number of edits, in whatever objects of a payload they
are made, leave the résumé that it is normalized to as it was. -/
theorem normalize_respelled {payload payload' : Json}
    (h : Payload.SameObject (Payload.Edits .resume) payload payload') :
    normalize payload' = normalize payload := by
  cases h with
  | same => rfl
  | obj hedits =>
      show Payload.resume _ = Payload.resume _
      induction hedits with
      | refl => rfl
      | tail _ hedit ih => exact hedit.sameResume.resume_eq.symm.trans ih

/-- The profile and its contact, the work history and the education change their names, and a text
in each of the objects within does; the contact and the course of study get a name that nothing
reads there, and the position gives one up. -/
theorem normalize_respelled_throughout :
    let contact : Json.Fields := [("linkedin_url", .str "in/ada")]
    let contact' : Json.Fields := [("fax", .str "none"), ("linkedin", .str "in/ada")]
    let person : Json.Fields := [("contact", .obj contact), ("full_name", .str "Ada")]
    let person' : Json.Fields := [("Contact", .obj contact'), ("fullName", .str "Ada")]
    let position : Json.Fields :=
      [("company", .str "Mill"), ("shift", .str "night"), ("title", .str "Miller")]
    let position' : Json.Fields := [("company", .str "Mill"), ("position", .str "Miller")]
    let course : Json.Fields := [("courses", .ofStrings ["Milling"]), ("school", .str "Ash")]
    let course' : Json.Fields :=
      [("courses", .ofStrings ["Milling"]), ("title", .str "BA"), ("university", .str "Ash")]
    let root : Json.Fields := [("education", .arr [.obj course]),
      ("experience", .arr [.null, .obj position]), ("profile", .obj person)]
    let root' : Json.Fields := [("Education", .arr [.obj course']), ("Profile", .obj person'),
      ("workExperience", .arr [.null, .obj position'])]
    let resume : Resume :=
      { profile := { name := "Ada", contact := { linkedin := "in/ada" } }
        work := [{ company := "Mill", role := "Miller" }]
        education := [{ institution := "Ash", coursework := ["Milling"] }] }
    Payload.SameObject (Payload.Edits .resume) (.obj root) (.obj root') ∧
      normalize (.obj root) = resume ∧ normalize (.obj root') = resume := by
  intro contact contact' person person' position position' course course' root root' resume
  have hedits : Payload.Edits .resume root root' := by
    -- the profile, its name, and the contact with its page
    refine .head (.rename ⟨Spelling.profile, .object .profile⟩ "profile" "Profile"
      (by decide) (by decide) (by decide) rfl (by decide)) ?_
    refine .head (.object .profile Spelling.profile "Profile" (by decide) (by decide) rfl
      (.rename ⟨Spelling.name, .plain⟩ "full_name" "fullName"
        (by decide) (by decide) (by decide) rfl (by decide))) ?_
    refine .head (.object .profile Spelling.profile "Profile" (by decide) (by decide) rfl
      (.rename ⟨Spelling.contact, .object .contact⟩ "contact" "Contact"
        (by decide) (by decide) (by decide) rfl (by decide))) ?_
    refine .head (.object .profile Spelling.profile "Profile" (by decide) (by decide) rfl
      (.object .contact Spelling.contact "Contact" (by decide) (by decide) rfl
        (.rename ⟨Spelling.linkedin, .plain⟩ "linkedin_url" "linkedin"
          (by decide) (by decide) (by decide) rfl (by decide)))) ?_
    refine .head (.object .profile Spelling.profile "Profile" (by decide) (by decide) rfl
      (.object .contact Spelling.contact "Contact" (by decide) (by decide) rfl
        (.add "fax" (.str "none") (by decide)))) ?_
    -- the work history and its position
    refine .head (.rename ⟨Spelling.work, .items .position⟩ "experience" "workExperience"
      (by decide) (by decide) (by decide) rfl (by decide)) ?_
    refine .head (.item .position Spelling.work "workExperience" [.null] []
      (by decide) (by decide) rfl (.rename ⟨Spelling.role, .plain⟩ "title" "position"
        (by decide) (by decide) (by decide) rfl (by decide))) ?_
    refine .head (.item .position Spelling.work "workExperience" [.null] []
      (by decide) (by decide) rfl (.remove "shift" (by decide))) ?_
    -- the education and its course of study
    refine .head (.rename ⟨Spelling.education, .items .course⟩ "education" "Education"
      (by decide) (by decide) (by decide) rfl (by decide)) ?_
    refine .head (.item .course Spelling.education "Education" [] [] (by decide) (by decide) rfl
      (.rename ⟨Spelling.institution, .plain⟩ "school" "university"
        (by decide) (by decide) (by decide) rfl (by decide))) ?_
    refine .head (.item .course Spelling.education "Education" [] [] (by decide) (by decide) rfl
      (.add "title" (.str "BA") (by decide))) ?_
    exact .refl
  have hresume : normalize (.obj root) = resume := by decide +kernel
  exact ⟨.obj hedits, hresume, (normalize_respelled (.obj hedits)).trans hresume⟩

end Vitae
