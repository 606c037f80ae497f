import FieldVault.Entropy
import FieldVault.Settings.Value
import FieldVault.Text
import FieldVault.Text.Quoted
import FieldVault.Wipe.Workers

/-!
# Settings

The settings of the service come from environment variables. Each has a default, is read as the
kind of value it wants (`ofEnvironment`), is adjusted where that is harmless (`normalise`), and is
then checked (`validate`). The master secret is never shown.
-/

set_option autoImplicit false

namespace FieldVault

/-- The settings of the service. -/
structure Settings where
  masterSecret : Option String
  /-- The share of the cores that a flush may use. -/
  share : Binary64
  /-- The size above which content is hashed as a stream. -/
  threshold : Nat
  /-- Whether a digest is recorded for every stored document and checked on reading. -/
  integrity : Bool
  schemaDir : Option String
  listenPort : Nat
  /-- Where traces are sent to. -/
  endpoint : Option String
  logLevel : String

namespace Settings

/-- The least length of a master secret. -/
def secretLength : Nat := 22

/-- Why settings are not accepted. -/
inductive Fault where
  /-- A value is not of the kind its setting wants. -/
  | unreadable
  | shareOutOfRange
  /-- The length asked of a master secret is one that may not be asked for. -/
  | misconfiguredGate
  | weakMasterSecret
  | blankSchemaDir
deriving DecidableEq

/-- The text of a fault. -/
def Fault.message : Fault → String
  | .unreadable => "failed to deserialise configuration"
  | .shareOutOfRange => "WIPE_THREAD_LIMIT_PERCENTAGE must be a number in (0, 1]"
  | .misconfiguredGate => "entropy gate misconfigured"
  | .weakMasterSecret =>
    "MASTER_SECRET must be at least " ++ toString secretLength
      ++ " characters with sufficient entropy"
  | .blankSchemaDir => "SCHEMA_DIR must not be empty when set"

/-! ### Reading -/

/-- A character of the name of a variable in lower case, as far as it can be one of the letters
of a setting: those of ASCII and the sign of the kelvin. -/
def lowerLetter (c : Char) : Char := if c = '\u212a' then 'k' else c.toLower

/-- Whether a variable is the one of a setting, in any case. -/
def isNamed (setting name : String) : Bool := name.toList.map lowerLetter = setting.toList

/-- Whether a character may stand in a part of the name of a variable that has parts. -/
def isPartChar (c : Char) : Bool := c.isAlphanum || c = '_' || c = '-' || c = ' '

/-- The rest of a name after an index in brackets, from behind the opening one. The index is a
whole number of 64 bits with sign. -/
def afterIndex? (name : List Char) : Option (List Char) :=
  let isGap (c : Char) : Bool := c = ' ' || c = '\t'
  let name := name.dropWhile isGap
  let (negative, name) :=
    match name with
    | '-' :: rest => (true, rest)
    | _ => (false, name)
  let digits := name.takeWhile Binary64.isDigit
  -- there is one more negative number of 64 bits than there are positive ones
  let bound := if negative then 1 <<< 63 else (1 <<< 63) - 1
  if digits.isEmpty ∨ bound < Binary64.boundedValue (1 <<< 64) digits then none
  else match (name.dropWhile Binary64.isDigit).dropWhile isGap with
    | ']' :: rest => some rest
    | _ => none

/-- The rest of a name after a step into what stands under a name: a point with a part, or an
index in brackets. -/
def afterStep? : List Char → Option (List Char)
  | '.' :: rest => if rest.head?.any isPartChar then some (rest.dropWhile isPartChar) else none
  | '[' :: rest => afterIndex? rest
  | _ => none

/-- Whether a rest of a name consists of steps. Every step takes a character, so the name is
enough fuel. -/
def areSteps : List Char → List Char → Bool
  | _, [] => true
  | [], _ :: _ => false
  | _ :: fuel, name => (afterStep? name).any (areSteps fuel)

/-- Whether a variable is one of the parts of a setting, which has none. -/
def isPartOf (setting name : String) : Bool :=
  let name := name.toList.map lowerLetter
  let steps := name.dropWhile isPartChar
  name.takeWhile isPartChar = setting.toList && !steps.isEmpty && areSteps steps steps

/-- The names of the settings. -/
def names : List String :=
  ["master_secret", "wipe_thread_limit_percentage", "storage_threshold_bytes",
    "integrity_check_enabled", "schema_dir", "listen_port", "otel_exporter_otlp_endpoint",
    "log_level"]

/-- The value of a setting, the last one given. -/
def valueOf? (environment : List (String × String)) (setting : String) : Option Value :=
  (environment.reverse.find? fun entry => isNamed setting entry.1).map fun entry =>
    Value.ofText entry.2

/-- A setting read as the kind it wants, or its default. -/
def readOr {α : Type} (environment : List (String × String)) (setting : String) (default : α)
    (convert : Value → Option α) : Except Fault α :=
  match valueOf? environment setting with
  | none => .ok default
  | some value =>
    match convert value with
    | some a => .ok a
    | none => .error .unreadable

/-- A setting that is a text and may be missing. -/
def readText? (environment : List (String × String)) (setting : String) : Option String :=
  (valueOf? environment setting).map Value.toText

/-- The size above which content is hashed as a stream, unless another is given. -/
def defaultThreshold : Nat := 16 * 1024 * 1024

/-- Where the service listens, unless told otherwise. -/
def defaultListenPort : Nat := 8080

/-- The greatest number that can be listened on. -/
def maxListenPort : Nat := 65535

/-- The settings that an environment gives, as they stand. No setting may be given in parts. -/
def ofEnvironment (environment : List (String × String)) : Except Fault Settings := do
  if environment.any fun entry => names.any (isPartOf · entry.1) then throw .unreadable
  let share ←
    readOr environment "wipe_thread_limit_percentage" Wipe.defaultShare Value.toDouble?
  let threshold ← readOr environment "storage_threshold_bytes" defaultThreshold Value.toWord?
  let integrity ← readOr environment "integrity_check_enabled" true Value.toFlag?
  let listenPort ←
    readOr environment "listen_port" defaultListenPort (Value.toBounded? maxListenPort)
  return {
    masterSecret := readText? environment "master_secret"
    share, threshold, integrity
    schemaDir := readText? environment "schema_dir"
    listenPort
    endpoint := readText? environment "otel_exporter_otlp_endpoint"
    logLevel := (readText? environment "log_level").getD "info" }

/-! ### Adjusting and checking -/

/-- The least size above which content may be hashed as a stream. -/
def minThreshold : Nat := 1024

/-- The settings with a small threshold raised and a large share lowered. -/
def normalise (s : Settings) : Settings :=
  { s with
    threshold := max minThreshold s.threshold
    share := if Binary64.one.lt s.share then .one else s.share }

/-- Whether a share is a positive number. -/
def isPositiveShare (share : Binary64) : Bool := share.isFinite && (Binary64.zero false).lt share

/-- A master secret must be strong. -/
def validateSecret [Entropy.Machine] (secret : String) : Except Fault Unit :=
  match Entropy.hasMinimum secret secretLength with
  | .error _ => .error .misconfiguredGate
  | .ok strong => if strong then .ok () else .error .weakMasterSecret

/-- The first fault of the settings, if there is one. -/
def validate [Entropy.Machine] (s : Settings) : Except Fault Unit := do
  if !isPositiveShare s.share then throw .shareOutOfRange
  if let some secret := s.masterSecret then validateSecret secret
  if s.schemaDir.any Text.isBlank then throw .blankSchemaDir

/-- The settings adjusted, if they are in order. -/
def accept [Entropy.Machine] (s : Settings) : Except Fault Settings := do
  -- the settings checked are the adjusted ones
  validate s.normalise
  return s.normalise

/-- The settings of a service in an environment. -/
def load [Entropy.Machine] (environment : List (String × String)) : Except Fault Settings := do
  accept (← ofEnvironment environment)

/-! ### Showing -/

/-- Doubles are shown with a point, and with an exponent when they are very large or small. -/
def doubleLayout : Binary64.Layout where
  tie := .up
  isPositional power := -4 ≤ power && power < 16
  keepsPoint := true
  exponentSign := ""
  infinity := "inf"
  nan := "NaN"

/-- A text that may be missing. -/
def describeText? : Option String → String
  | some text => "Some(" ++ Text.quote text ++ ")"
  | none => "None"

/-- The settings in one line, without the master secret. -/
def describe (s : Settings) : String :=
  let fields := [
    ("master_secret", describeText? (s.masterSecret.map fun _ => "[REDACTED]")),
    ("wipe_thread_limit_percentage", doubleLayout.render s.share),
    ("storage_threshold_bytes", toString s.threshold),
    ("integrity_check_enabled", toString s.integrity),
    ("schema_dir", describeText? s.schemaDir),
    ("listen_port", toString s.listenPort),
    ("otel_exporter_otlp_endpoint", describeText? s.endpoint),
    ("log_level", Text.quote s.logLevel)]
  "Config \x7b " ++ ", ".intercalate (fields.map fun (name, value) => name ++ ": " ++ value)
    ++ " \x7d"

end Settings

end FieldVault
