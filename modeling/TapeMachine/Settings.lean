/-
Settings: what the environment says about the machine to build, after an env
file has been loaded into it.
-/
import TapeMachine.EnvFile.Load
import TapeMachine.Tape
import TapeMachine.Text.Numeral
import TapeMachine.Text.Quoted

namespace TapeMachine

structure Settings where
  tapeLength : Nat := Tape.defaultLength
  debug : Bool := false
  /-- How many cells reports show; 0 for none. -/
  memoryWindow : Nat := 0
deriving DecidableEq, Repr

/-- Why there are no settings. -/
inductive SettingsError
  | file (e : EnvFile.LoadError)
  | notInteger (name raw : String)
  | tapeTooShort (n : Int)
  | negativeWindow (n : Int)
deriving DecidableEq, Repr

namespace Settings

def tapeLengthName : String := "BF_TAPE_LENGTH"
def debugName : String := "BF_DEBUG"
def memoryWindowName : String := "BF_MEMORY_WINDOW"

end Settings

def SettingsError.message : SettingsError → String
  | .file e => e.message
  | .notInteger name raw => s!"{name} must be an integer, got {Text.quoted raw}"
  | .tapeTooShort n => s!"{Settings.tapeLengthName} must be at least 1, got {n}"
  | .negativeWindow n => s!"{Settings.memoryWindowName} must not be negative, got {n}"

namespace Settings

/-- An integer variable; unset or blank it has its default. -/
def integer (env : Environment) (name : String) (default : Int) : Except SettingsError Int :=
  match env.get? name with
  | none => .ok default
  | some raw =>
    if raw.toList.all Text.isBlank then .ok default
    else
      match Text.Numeral.parse? raw.toList with
      | some n => .ok n
      | none => .error (.notInteger name raw)

/-- The spellings of yes, in any case. -/
def isTrue (raw : String) : Bool :=
  ["1", "true", "yes", "on"].contains
    (String.ofList ((Text.trim Text.isBlank raw.toList).map Char.toLower))

/-- The settings that an environment holds. -/
def ofEnvironment (env : Environment) : Except SettingsError Settings := do
  let tapeLength ← integer env tapeLengthName Tape.defaultLength
  if tapeLength < 1 then throw (.tapeTooShort tapeLength)
  let window ← integer env memoryWindowName 0
  if window < 0 then throw (.negativeWindow window)
  let debug := isTrue ((env.get? debugName).getD "")
  return { tapeLength := tapeLength.toNat, debug, memoryWindow := window.toNat }

/-- The settings or why there are none, the environment after loading, and
the warnings. -/
structure Outcome where
  settings : Except SettingsError Settings
  environment : Environment
  warnings : String

/-- Loads an env file and reads the settings. -/
def load (fs : Files) (path : Option String) (env : Environment) : Outcome :=
  let loaded := EnvFile.load fs path env
  let settings :=
    match loaded.error with
    | some e => .error (.file e)
    | none => ofEnvironment loaded.environment
  ⟨settings, loaded.environment, String.join (loaded.malformed.map EnvFile.warning)⟩

end Settings
end TapeMachine
