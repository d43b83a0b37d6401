import Vitae.Template.Metered
import Vitae.Text.Blank
import Vitae.Text.Numeral
/-!
# Settings of the service

The service is set up by variables of its environment. Each may be missing; one that is given has to
hold a numeral within the variable's range, blanks around it aside, or the service does not start.
The variables are read in one fixed order, and the first that is ill-formed is reported, with its
text as it was given.
-/

namespace Vitae.Service

/-- A variable that holds a number. -/
inductive Variable where
  /-- The network port to listen on. -/
  | port
  /-- The limit on tags of a render. -/
  | maxTagScans
  /-- The limit on the nesting of a render. -/
  | maxDepth
  /-- The limit on the size of a template. -/
  | maxTemplateBytes
  deriving Repr, DecidableEq

namespace Variable

/-- The name of the variable in the environment. -/
def name : Variable → String
  | port => "PORT"
  | maxTagScans => "RENDER_MAX_TAG_SCANS"
  | maxDepth => "RENDER_MAX_DEPTH"
  | maxTemplateBytes => "MAX_TEMPLATE_BYTES"

/-- What the value of the variable lies below. -/
def bound : Variable → Nat
  | port => Nat.pow 2 16
  | maxTagScans | maxDepth | maxTemplateBytes => Nat.pow 2 64

end Variable

/-- The name of the variable that says what is logged. -/
def logVariable : String := "RUST_LOG"

/-- A variable that is ill-formed. -/
structure SettingError where
  /-- The variable. -/
  source : Variable
  /-- Its text as it was given. -/
  given : String
  /-- What is wrong with it. -/
  fault : Text.NumeralFault
  deriving Repr, DecidableEq

/-- The wording of an error. -/
def SettingError.message (e : SettingError) : String :=
  "Environment variable '" ++ e.source.name ++ "' has invalid value '" ++ e.given ++ "': " ++
    e.fault.message

/-- The settings of the service. -/
structure Settings where
  /-- The network port to listen on. -/
  port : Nat := 8080
  /-- What is logged. -/
  logging : String := "info"
  /-- How many tags a render may look at. -/
  maxTagScans : Nat := Template.Limits.maxTagScans {}
  /-- How deep the section bodies of a render may nest. -/
  maxDepth : Nat := Template.Limits.maxDepth {}
  /-- The largest size of a template, in bytes. -/
  maxTemplateBytes : Nat := 1048576
  deriving Repr, DecidableEq

/-- The limits of every render. -/
def Settings.renderLimits (settings : Settings) : Template.Limits where
  maxTagScans := settings.maxTagScans
  maxDepth := settings.maxDepth

/-- The number that a variable holds, or its default where it is not given. -/
def Variable.read (v : Variable) (environment : String → Option String) (default : Nat) :
    Except SettingError Nat :=
  match environment v.name with
  | none => .ok default
  | some given =>
    match Text.readNumeral v.bound (Text.trim given.toList) with
    | .ok n => .ok n
    | .error fault => .error ⟨v, given, fault⟩

/-- The settings given by an environment. -/
def Settings.read (environment : String → Option String) : Except SettingError Settings := do
  let defaults : Settings := {}
  let port ← Variable.port.read environment defaults.port
  let maxTagScans ← Variable.maxTagScans.read environment defaults.maxTagScans
  let maxDepth ← Variable.maxDepth.read environment defaults.maxDepth
  let maxTemplateBytes ← Variable.maxTemplateBytes.read environment defaults.maxTemplateBytes
  return {
    port
    logging := (environment logVariable).getD defaults.logging
    maxTagScans
    maxDepth
    maxTemplateBytes
  }

end Vitae.Service
