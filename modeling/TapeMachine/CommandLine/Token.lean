/-
The words of a command line, sorted into options and positional arguments
before any of them is acted on. A long option may be cut short as long as it
can be told apart, and takes a value after an equals sign; a short one has its
value right behind it. After the first `--` every word is positional, and so is
a word that looks like a negative number or has a space in it.
-/
import TapeMachine.Text.Numeral
import TapeMachine.Text.Quoted

namespace TapeMachine.CommandLine

/-- The options. -/
inductive Switch
  | help | debug | tapeLength | memoryWindow
deriving DecidableEq, Repr

namespace Switch

def all : List Switch := [.help, .debug, .tapeLength, .memoryWindow]

def long : Switch → String
  | .help => "--help"
  | .debug => "--debug"
  | .tapeLength => "--tape-length"
  | .memoryWindow => "--memory-window"

/-- The letter of the short form. -/
def short? : Switch → Option Char
  | .help => some 'h'
  | .debug => some 'd'
  | .tapeLength | .memoryWindow => none

def takesValue : Switch → Bool
  | .help | .debug => false
  | .tapeLength | .memoryWindow => true

def ofLetter? (c : Char) : Option Switch := all.find? (·.short? = some c)

/-- The spellings of an option, as messages name it. -/
def label (s : Switch) : String :=
  match s.short? with
  | some c => "-" ++ c.toString ++ "/" ++ s.long
  | none => s.long

end Switch

/-- Why a command line is refused. -/
inductive UsageError
  | ambiguous (word : String)
  | expectedValue (s : Switch)
  | invalidInteger (s : Switch) (raw : String)
  /-- A value behind an option that takes none. -/
  | ignoredValue (s : Switch) (raw : String)
  | unrecognized (words : List String)
deriving DecidableEq, Repr

def UsageError.message : UsageError → String
  | .ambiguous word =>
    "ambiguous option: " ++ word ++ " could match " ++ ", ".intercalate (Switch.all.map Switch.long)
  | .expectedValue s => "argument " ++ s.label ++ ": expected one argument"
  | .invalidInteger s raw => "argument " ++ s.label ++ ": invalid int value: " ++ Text.quoted raw
  | .ignoredValue s raw => "argument " ++ s.label ++ ": ignored explicit argument " ++ Text.quoted raw
  | .unrecognized words => "unrecognized arguments: " ++ " ".intercalate words

/-- What a word is. -/
inductive Token
  | positional (word : String)
  /-- An option, in its short form or not, and what is attached to it. -/
  | switch (s : Switch) (short : Bool) (attached : Option String)
  | unknown (word : String)
  /-- The first `--`. -/
  | separator
deriving DecidableEq, Repr

namespace Token

/-- A word cut at its first equals sign. -/
def cutAtEquals (word : List Char) : List Char × Option (List Char) :=
  match word.dropWhile (· ≠ '=') with
  | [] => (word, none)
  | _ :: value => (word.takeWhile (· ≠ '='), some value)

def isDigit (c : Char) : Bool := (Text.Numeral.digit? c).isSome

/-- One digit at least and nothing else, a line feed at the end apart. -/
def isDigits (s : List Char) : Bool :=
  match s.dropWhile isDigit with
  | [] | ['\n'] => s.head?.any isDigit
  | _ => false

/-- A minus sign and a number, whole or with a decimal point. -/
def isNegativeNumber : List Char → Bool
  | '-' :: rest =>
    isDigits rest ||
      (match rest.dropWhile isDigit with
      | '.' :: fraction => isDigits fraction
      | _ => false)
  | _ => false

/-- A word with two dashes that names an option or begins like one. -/
def ofLong (word : List Char) : Except UsageError (Option Token) :=
  let (name, value) := cutAtEquals word
  let attached := value.map String.ofList
  match Switch.all.filter fun s => name.isPrefixOf s.long.toList with
  | [] => .ok none
  | [s] => .ok (some (.switch s false attached))
  | _ => .error (.ambiguous (String.ofList word))

/-- A word with one dash that begins with the letter of an option. -/
def ofShort : List Char → Option Token
  | '-' :: c :: rest =>
    (Switch.ofLetter? c).map fun s =>
      .switch s true (match rest with
        | [] => none
        | '=' :: value => some (String.ofList value)
        | value => some (String.ofList value))
  | _ => none

/-- A word that is not `--`. -/
def ofWord (word : String) : Except UsageError Token :=
  match word.toList with
  | '-' :: c :: rest => do
    let found ← if c = '-' then ofLong ('-' :: c :: rest) else pure (ofShort ('-' :: c :: rest))
    match found with
    | some t => return t
    | none =>
      if isNegativeNumber ('-' :: c :: rest) || rest.contains ' ' || c = ' ' then return .positional word
      else return .unknown word
  | _ => .ok (.positional word)

/-- The words of a command line in order. -/
def ofWords : List String → Except UsageError (List Token)
  | [] => .ok []
  | word :: rest =>
    if word = "--" then .ok (.separator :: rest.map .positional)
    else do return (← ofWord word) :: (← ofWords rest)

end Token
end TapeMachine.CommandLine
