import Mathlib.Data.List.Basic
import Mathlib.Logic.Function.Basic
import Vitae.Proofs.Numerals
import Vitae.Service.Settings

/-!
# Settings and the environment they are read from

Which environments the service starts in is said here without reading them: every variable that is
given has to hold a numeral below its bound (`Variable.Gives`), and then this is its setting. What
is told of any other environment is the first ill-formed variable in the reading order, with its
text and with the first thing wrong in it (`SettingError.IllFormed`).

Reading the settings is reading the variables in order (`map_numbers_read`); what such a reading
gives is said once for all lists of variables (`mapM_eq_error_iff`).
-/

namespace Vitae.Service

open Text (IsNumeral Faulty)

/-- The order in which the variables are read. -/
def readingOrder : List Variable := [.port, .maxTagScans, .maxDepth, .maxTemplateBytes]

/-- The number that is set by a variable. -/
def Settings.number (settings : Settings) : Variable → Nat
  | .port => settings.port
  | .maxTagScans => settings.maxTagScans
  | .maxDepth => settings.maxDepth
  | .maxTemplateBytes => settings.maxTemplateBytes

/-- The number of a variable that is not given. -/
def Variable.default : Variable → Nat
  | .port => 8080
  | .maxTagScans => 100000
  | .maxDepth => 64
  | .maxTemplateBytes => 1048576

/-- Whether a variable has the value `n` in an environment: it holds a numeral of `n`, blanks around
it aside, and `n` is below its bound; or it is not given, and `n` is its default. -/
def Variable.Gives (v : Variable) (environment : String → Option String) (n : Nat) : Prop :=
  match environment v.name with
  | none => n = v.default
  | some given => IsNumeral (Text.trim given.toList) n ∧ n < v.bound

/-- Whether an environment gives the variable of an error this text, and its fault is the first
thing wrong with it. -/
structure SettingError.IllFormed (e : SettingError) (environment : String → Option String) :
    Prop where
  given : environment e.source.name = some e.given
  faulty : Faulty e.source.bound (Text.trim e.given.toList) e.fault

/-! ### One variable -/

/-- What is read of a variable. -/
def Variable.value (v : Variable) (environment : String → Option String) :
    Except SettingError Nat :=
  v.read environment v.default

variable {environment : String → Option String} {v : Variable} {n : Nat} {e : SettingError}

theorem Variable.bound_pos (v : Variable) : 0 < v.bound := by
  cases v <;> decide

theorem Variable.value_eq_ok_iff : v.value environment = .ok n ↔ v.Gives environment n := by
  unfold Variable.value Variable.read Variable.Gives
  cases environment v.name with
  | none => simp [eq_comm]
  | some given =>
      dsimp only
      rw [← Text.readNumeral_eq_ok_iff v.bound_pos]
      cases Text.readNumeral v.bound (Text.trim given.toList) <;> simp

theorem Variable.value_eq_error_iff :
    v.value environment = .error e ↔ e.source = v ∧ e.IllFormed environment := by
  unfold Variable.value Variable.read
  constructor
  · intro h
    split at h
    · cases h
    · rename_i given hgiven
      split at h
      · cases h
      · rename_i fault hfault
        obtain rfl := Except.error.inj h
        exact ⟨rfl, hgiven, (Text.readNumeral_eq_error_iff v.bound_pos).mp hfault⟩
  · rintro ⟨rfl, hgiven, hfaulty⟩
    have hread := (Text.readNumeral_eq_error_iff e.source.bound_pos).mpr hfaulty
    rw [hgiven]
    dsimp only
    rw [hread]

/-! ### All variables in order -/

section

variable {α β ε : Type} {x : Except ε α} {f : α → Except ε β} {err : ε}

theorem bind_eq_ok_iff {b : β} : (x >>= f) = .ok b ↔ ∃ a, x = .ok a ∧ f a = .ok b := by
  cases x <;> simp [bind, Except.bind]

theorem bind_eq_error_iff :
    (x >>= f) = .error err ↔ x = .error err ∨ ∃ a, x = .ok a ∧ f a = .error err := by
  cases x <;> simp [bind, Except.bind]

theorem mapM_cons_eq_error_iff {first : α} {rest : List α} :
    (first :: rest).mapM f = .error err ↔
      f first = .error err ∨ (∃ b, f first = .ok b) ∧ rest.mapM f = .error err := by
  simp [List.mapM_cons, bind_eq_error_iff, pure, Except.pure]

/-- Reading in order fails at the first item that cannot be read. -/
theorem mapM_eq_error_iff {items : List α} :
    items.mapM f = .error err ↔
      ∃ before item after, items = before ++ item :: after ∧
        (∀ earlier ∈ before, ∃ b, f earlier = .ok b) ∧ f item = .error err := by
  induction items with
  | nil => simp [pure, Except.pure]
  | cons first rest ih =>
      rw [mapM_cons_eq_error_iff, ih]
      constructor
      · rintro (hfirst | ⟨hfirst, before, item, after, rfl, hbefore, hitem⟩)
        · exact ⟨[], first, rest, rfl, List.forall_mem_nil _, hfirst⟩
        · exact ⟨first :: before, item, after, rfl,
            List.forall_mem_cons.mpr ⟨hfirst, hbefore⟩, hitem⟩
      · rintro ⟨before, item, after, hitems, hbefore, hitem⟩
        cases before with
        | nil =>
            obtain ⟨rfl, rfl⟩ := List.cons.inj hitems
            exact .inl hitem
        | cons first' before =>
            obtain ⟨rfl, rfl⟩ := List.cons.inj hitems
            obtain ⟨hfirst, hbefore⟩ := List.forall_mem_cons.mp hbefore
            exact .inr ⟨hfirst, before, item, after, rfl, hbefore, hitem⟩

end

theorem Settings.read_eq (environment : String → Option String) :
    Settings.read environment = do
      let port ← Variable.port.value environment
      let maxTagScans ← Variable.maxTagScans.value environment
      let maxDepth ← Variable.maxDepth.value environment
      let maxTemplateBytes ← Variable.maxTemplateBytes.value environment
      return {
        port
        logging := (environment logVariable).getD "info"
        maxTagScans
        maxDepth
        maxTemplateBytes
      } := rfl

/-- The settings are read when all variables are, and have their values. -/
theorem read_eq_ok_iff {settings : Settings} :
    Settings.read environment = .ok settings ↔
      (∀ v : Variable, v.value environment = .ok (settings.number v)) ∧
        settings.logging = (environment logVariable).getD "info" := by
  constructor
  · intro h
    simp only [Settings.read_eq, bind_eq_ok_iff] at h
    obtain ⟨port, hport, maxTagScans, hscans, maxDepth, hdepth, maxTemplateBytes, hbytes, h⟩ := h
    obtain rfl := Except.ok.inj h
    refine ⟨?_, rfl⟩
    intro v
    cases v with
    | port => exact hport
    | maxTagScans => exact hscans
    | maxDepth => exact hdepth
    | maxTemplateBytes => exact hbytes
  · rintro ⟨hnumber, hlogging⟩
    rw [Settings.read_eq, hnumber, hnumber, hnumber, hnumber, ← hlogging]
    rfl

/-- They are not read when reading the variables in order fails. -/
theorem read_eq_error_iff :
    Settings.read environment = .error e ↔
      readingOrder.mapM (Variable.value · environment) = .error e := by
  simp only [Settings.read_eq, bind_eq_error_iff, readingOrder, mapM_cons_eq_error_iff,
    List.mapM_nil, pure, Except.pure, reduceCtorEq, and_false, exists_const, exists_and_right]

/-! ### The wording of an error -/

theorem SettingError.message_eq (e : SettingError) :
    e.message = "Environment variable '" ++ e.source.name ++ "' has invalid value '" ++ e.given ++
      "': " ++ e.fault.message := rfl

/-- A fault is told from the eighth character of its wording, counted from the end. -/
theorem fault_eq_of_append {fault fault' : Text.NumeralFault} {s s' : String}
    (h : s ++ fault.message = s' ++ fault'.message) : fault = fault' := by
  have hend (fault : Text.NumeralFault) (s : String) :
      (s ++ fault.message).toList.reverse[7]? =
        some (if fault = .empty then 'y' else if fault = .invalidDigit then 'n' else 'g') := by
    rw [String.toList_append, List.reverse_append, List.getElem?_append_left]
    all_goals cases fault <;> decide
  have hchar := congrArg (fun s : String => s.toList.reverse[7]?) h
  rw [hend, hend] at hchar
  cases fault <;> cases fault' <;> simp_all

theorem Variable.name_injective : Function.Injective Variable.name := by
  intro v w h
  cases v <;> cases w <;> simp_all [name]

/-- The name of a variable is told from what stands before the next quotation mark. -/
theorem source_eq_of_append {v w : Variable} {s s' : List Char}
    (h : v.name.toList ++ '\x27' :: s = w.name.toList ++ '\x27' :: s') : v = w := by
  have hname (v : Variable) (s : List Char) :
      (v.name.toList ++ '\x27' :: s).takeWhile (· ≠ '\x27') = v.name.toList := by
    have hquote : '\x27' ∉ v.name.toList := by
      cases v <;> decide
    have hplain : ∀ c ∈ v.name.toList, decide (c ≠ '\x27') = true := by
      intro c hc
      exact decide_eq_true fun heq => hquote (heq ▸ hc)
    rw [List.takeWhile_append_of_pos hplain]
    simp
  have hsame := congrArg (List.takeWhile (· ≠ '\x27')) h
  rw [hname, hname] at hsame
  exact Variable.name_injective (String.toList_injective hsame)

/-- The wording of an error tells which variable is ill-formed, what text it was given, and what is
wrong with it. -/
theorem SettingError.message_injective : Function.Injective SettingError.message := by
  intro e e' h
  rw [message_eq, message_eq] at h
  have hfault : e.fault = e'.fault := fault_eq_of_append h
  rw [hfault, String.append_left_inj, String.append_left_inj, String.append_assoc,
    String.append_assoc, String.append_assoc, String.append_assoc, String.append_right_inj] at h
  have hquote : "' has invalid value '".toList = '\x27' :: " has invalid value '".toList := by
    decide
  have hsource : e.source = e'.source := by
    have hlist := congrArg String.toList h
    rw [String.toList_append, String.toList_append, String.toList_append, String.toList_append,
      hquote] at hlist
    exact source_eq_of_append hlist
  rw [hsource, String.append_right_inj, String.append_right_inj] at h
  cases e
  cases e'
  simp_all

/-! ### Which environments the service starts in -/

theorem exists_value_iff :
    (∃ n, v.value environment = .ok n) ↔
      ∀ given, environment v.name = some given →
        ∃ n < v.bound, IsNumeral (Text.trim given.toList) n := by
  simp only [Variable.value_eq_ok_iff, Variable.Gives]
  cases environment v.name with
  | none => simp
  | some given => simp [and_comm]

/-- Variables can be set to any numbers. -/
theorem exists_number (numbers : Variable → Nat) (logging : String) :
    ∃ settings : Settings, settings.number = numbers ∧ settings.logging = logging := by
  refine ⟨⟨numbers .port, logging, numbers .maxTagScans, numbers .maxDepth,
    numbers .maxTemplateBytes⟩, ?_, rfl⟩
  funext v
  cases v <;> rfl

/-- **The service starts in well-formed environments.** The variables have these names, these
defaults and these bounds. Settings are read exactly when every variable that is given holds a
numeral below its bound; each number is then the one given or the default, and the limits of the
renders are two of them. Otherwise the error is about the first ill-formed variable in the order of
reading, with the text that it was given and the first thing wrong in it, and all of this can be
told from its wording. -/
theorem settings_of_environment (environment : String → Option String) :
    (readingOrder.map fun v => (v.name, v.default, v.bound)) =
        [("PORT", 8080, Nat.pow 2 16), ("RENDER_MAX_TAG_SCANS", 100000, Nat.pow 2 64),
          ("RENDER_MAX_DEPTH", 64, Nat.pow 2 64), ("MAX_TEMPLATE_BYTES", 1048576, Nat.pow 2 64)] ∧
      ((∃ settings, Settings.read environment = .ok settings) ↔
      ∀ (v : Variable) (given : String), environment v.name = some given →
        ∃ n < v.bound, IsNumeral (Text.trim given.toList) n) ∧
      (∀ settings : Settings, Settings.read environment = .ok settings ↔
        (∀ v : Variable, v.Gives environment (settings.number v)) ∧
          settings.logging = (environment "RUST_LOG").getD "info") ∧
      (∀ settings : Settings, settings.renderLimits =
        ⟨settings.number .maxTagScans, settings.number .maxDepth⟩) ∧
      (∀ e : SettingError, Settings.read environment = .error e ↔
        e.IllFormed environment ∧ ∃ before after, readingOrder = before ++ e.source :: after ∧
          ∀ v ∈ before, ∃ n, v.Gives environment n) ∧
      (∀ e : SettingError, e.message = "Environment variable '" ++ e.source.name ++
        "' has invalid value '" ++ e.given ++ "': " ++ e.fault.message) ∧
      Function.Injective SettingError.message := by
  refine ⟨rfl, ?_, ?_, fun _ => rfl, ?_, SettingError.message_eq,
    SettingError.message_injective⟩
  · simp only [← exists_value_iff]
    constructor
    · intro ⟨settings, hread⟩ v
      exact ⟨_, (read_eq_ok_iff.mp hread).1 v⟩
    · intro hvalue
      choose numbers hnumbers using hvalue
      obtain ⟨settings, rfl, hlogging⟩ :=
        exists_number numbers ((environment logVariable).getD "info")
      exact ⟨settings, read_eq_ok_iff.mpr ⟨hnumbers, hlogging⟩⟩
  · intro settings
    simp only [read_eq_ok_iff, Variable.value_eq_ok_iff]
    rfl
  · intro e
    simp only [read_eq_error_iff, mapM_eq_error_iff, Variable.value_eq_ok_iff,
      Variable.value_eq_error_iff]
    constructor
    · rintro ⟨before, _, after, horder, hbefore, rfl, hill⟩
      exact ⟨hill, before, after, horder, hbefore⟩
    · rintro ⟨hill, before, after, horder, hbefore⟩
      exact ⟨before, e.source, after, horder, hbefore, rfl, hill⟩

/-- A port that is written with a sign and zeros, with blanks around it, and no limit on the tags of
a render; and a limit that the last digit takes to its bound, with a letter behind it that is not
met any more and a variable behind it that is ill-formed as well. -/
theorem settings_of_environment_port :
    let started (name : String) : Option String :=
      if name = "PORT" then some " +0065535\t"
      else if name = "RENDER_MAX_DEPTH" then some "007" else none
    let refused (name : String) : Option String :=
      if name = "PORT" then some "65535"
      else if name = "RENDER_MAX_TAG_SCANS" then some " 18446744073709551616x"
      else if name = "RENDER_MAX_DEPTH" then some "" else none
    (∃ settings, Settings.read started = .ok settings ∧ settings.port = 65535 ∧
        settings.logging = "info" ∧ settings.renderLimits = ⟨100000, 7⟩ ∧
        settings.maxTemplateBytes = 1048576) ∧
      ∃ e, Settings.read refused = .error e ∧
        e.message = "Environment variable 'RENDER_MAX_TAG_SCANS' has invalid value " ++
          "' 18446744073709551616x': number too large to fit in target type" := by
  intro started refused
  constructor
  · obtain ⟨-, -, hread, -⟩ := settings_of_environment started
    refine ⟨⟨65535, "info", 100000, 7, 1048576⟩, (hread _).mpr ⟨?_, rfl⟩, rfl, rfl, rfl, rfl⟩
    intro v
    cases v with
    | port =>
        exact ⟨⟨"0065535".toList, .inr (by decide +kernel), by decide, by decide, by decide⟩,
          by decide⟩
    | maxTagScans => rfl
    | maxDepth =>
        exact ⟨⟨"007".toList, .inl (by decide +kernel), by decide, by decide, by decide⟩,
          by decide⟩
    | maxTemplateBytes => rfl
  · obtain ⟨-, -, -, -, hrefused, -⟩ := settings_of_environment refused
    let e : SettingError := ⟨.maxTagScans, " 18446744073709551616x", .tooLarge⟩
    have hcomes : Text.ComesTo Variable.maxTagScans.bound (Text.trim e.given.toList)
        "1844674407370955161".toList '6' :=
      ⟨⟨['x'], by decide +kernel⟩, by decide, by decide⟩
    have hport : Variable.port.Gives refused 65535 :=
      ⟨⟨"65535".toList, .inl (by decide +kernel), by decide, by decide, by decide⟩, by decide⟩
    refine ⟨e, (hrefused e).mpr ⟨⟨rfl, .tooLarge hcomes rfl (by decide)⟩, [.port],
      [.maxDepth, .maxTemplateBytes], rfl, ?_⟩, by decide +kernel⟩
    simpa using ⟨65535, hport⟩

/-- At the bound the letter is not met any more, and before it the number is not too large yet. -/
example :
    let fault (port : String) :=
      match Settings.read fun name => if name = "PORT" then some port else none with
      | .ok _ => none
      | .error e => some e.fault
    fault " +0065535\t" = none ∧ fault "65536x" = some .tooLarge ∧
      fault "6553x6" = some .invalidDigit := by
  decide +kernel

end Vitae.Service
