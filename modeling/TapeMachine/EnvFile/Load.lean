/-
Loading an env file into the environment. A file only adds: variables that
are there already keep their values, even empty ones.
-/
import TapeMachine.EnvFile.Expansion
import TapeMachine.EnvFile.Statement
import TapeMachine.Files
import TapeMachine.Text.Newline
import TapeMachine.Text.Utf8

namespace TapeMachine.EnvFile

/-- Why a file cannot be loaded. -/
inductive LoadError
  | undecodable (e : Text.Utf8.Malformed)
  /-- A null character in a name, a value or the path of the file. -/
  | nullCharacter
  /-- An equals sign in a name. -/
  | badName
deriving DecidableEq, Repr

def LoadError.message : LoadError → String
  | .undecodable e => e.message
  | .nullCharacter => "embedded null byte"
  | .badName => "illegal environment variable name"

/-- The environment after loading, the lines that were not understood, and
what went wrong. What was set before an error stays set. -/
structure Loaded where
  environment : Environment
  malformed : List Nat
  error : Option LoadError

def warning (line : Nat) : String :=
  s!"python-dotenv could not parse statement starting at line {line}\n"

def hasNull (s : String) : Bool := s.toList.contains '\x00'

/-- Sets one variable. -/
def setVariable (env : Environment) (name value : String) : Except LoadError Environment :=
  if hasNull name || hasNull value then .error .nullCharacter
  else if name.toList.contains '=' then .error .badName
  else .ok (env.insert name value)

/-- Sets the variables that are not there yet, up to the first that cannot be
set. -/
def setAll (env : Environment) : Bindings → Environment × Option LoadError
  | [] => (env, none)
  | (_, none) :: rest => setAll env rest
  | (name, some value) :: rest =>
    if env.contains name then setAll env rest
    else
      match setVariable env name value with
      | .ok env => setAll env rest
      | .error e => (env, some e)

/-- The text of a file: line ends unified, a byte order mark dropped. -/
def decode (bytes : List UInt8) : Except Text.Utf8.Malformed (List Char) :=
  (Text.Utf8.decode bytes).map fun s =>
    match Text.unifyNewlines s with
    | c :: rest => if c.toNat = 0xfeff then rest else c :: rest
    | [] => []

/-- Loads what is in a file. -/
def loadBytes (env : Environment) (bytes : List UInt8) : Loaded :=
  match decode bytes with
  | .error e => ⟨env, [], some (.undecodable e)⟩
  | .ok s =>
    let contents := read s
    let (env, error) := setAll env (bind env contents.bindings)
    ⟨env, contents.malformed, error⟩

/-- Whether the environment itself forbids loading. -/
def isDisabled (env : Environment) : Bool :=
  match env.get? "PYTHON_DOTENV_DISABLED" with
  | none => false
  | some v =>
    let folded := v.toList.map fun c => if c.toNat = 0x17f then 's' else c.toLower
    ["1", "true", "t", "yes", "y"].contains (String.ofList folded)

/-- What the chosen file holds: the one named, or the nearest one called
`.env`. A file that is not there is an empty one. -/
def chosen (fs : Files) (path : Option String) : Except LoadError (List UInt8) :=
  match path with
  | none | some "" => .ok ((fs.nearest? ".env").getD [])
  | some path => if hasNull path then .error .nullCharacter else .ok ((fs.read? path).getD [])

def load (fs : Files) (path : Option String) (env : Environment) : Loaded :=
  if isDisabled env then ⟨env, [], none⟩
  else
    match chosen fs path with
    | .error e => ⟨env, [], some e⟩
    | .ok bytes => loadBytes env bytes

end TapeMachine.EnvFile
