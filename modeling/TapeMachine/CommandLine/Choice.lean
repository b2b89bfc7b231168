/-
What a command line asks for. Options act from left to right, a later value
in place of an earlier one; help and errors end at once. The first positional
argument is the program; words that are left over are complained about after
everything else was in order.

A `--` is dropped where it is the value of an option, too. The option is then
without a value, and another may still come; if none does, there is a choice
but no job to be done.
-/
import TapeMachine.CommandLine.Token
import TapeMachine.Settings

namespace TapeMachine.CommandLine

/-- What the words chose. An option that was given and left without a value
has `none`. -/
structure Choice where
  input : Option String := none
  debug : Bool
  tapeLength : Option Int
  memoryWindow : Option Int
deriving DecidableEq, Repr

inductive Wish
  | help
  | run (c : Choice)
deriving DecidableEq, Repr

/-- The choice that settings make where the command line is silent. -/
def Choice.ofSettings (s : Settings) : Choice where
  debug := s.debug
  tapeLength := some s.tapeLength
  memoryWindow := some s.memoryWindow

/-- The flags that a short flag and the letters behind it are. -/
def flags (s : Switch) : List Char → Except UsageError (List Switch)
  | [] => .ok [s]
  | c :: rest =>
    match Switch.ofLetter? c with
    | some next => (flags next rest).map (s :: ·)
    | none => .error (.ignoredValue s (String.ofList (c :: rest)))

/-- The flags in one word. -/
def flagsOf (s : Switch) (short : Bool) (attached : Option String) : Except UsageError (List Switch) :=
  match attached with
  | none => .ok [s]
  | some raw => if short && !raw.isEmpty then flags s raw.toList else .error (.ignoredValue s raw)

/-- The value that a word is for an option. -/
def readValue (s : Switch) (raw : String) : Except UsageError (Option Int) :=
  if raw = "--" then .ok none
  else
    match Text.Numeral.parse? raw.toList with
    | some n => .ok (some n)
    | none => .error (.invalidInteger s raw)

/-- An option given a value, or left without one. -/
def Choice.set (c : Choice) (s : Switch) (value : Option Int) : Choice :=
  match s with
  | .tapeLength => { c with tapeLength := value }
  | .memoryWindow => { c with memoryWindow := value }
  | .help | .debug => c

/-- An option given a word as its value. -/
def Choice.setValue (c : Choice) (s : Switch) (raw : String) : Except UsageError Choice :=
  (readValue s raw).map (c.set s)

/-- The command line so far: the choice made, and the words left over. -/
structure Progress where
  choice : Choice
  leftover : List String := []

namespace Progress

def leave (p : Progress) (word : String) : Progress := { p with leftover := p.leftover ++ [word] }

/-- Acts on tokens. The separator goes unmentioned where it stands right
before or right after the program, or where there is none. -/
def follow (p : Progress) : List Token → Except UsageError Wish
  | [] => if p.leftover.isEmpty then .ok (.run p.choice) else .error (.unrecognized p.leftover)
  | .unknown word :: rest => (p.leave word).follow rest
  | .switch s short attached :: rest =>
    if s.takesValue then
      match attached with
      | some raw =>
        match p.choice.setValue s raw with
        | .ok c => Progress.follow { p with choice := c } rest
        | .error e => .error e
      | none =>
        match rest with
        | .positional raw :: rest =>
          match p.choice.setValue s raw with
          | .ok c => Progress.follow { p with choice := c } rest
          | .error e => .error e
        | _ => .error (.expectedValue s)
    else
      match flagsOf s short attached with
      | .ok flags =>
        if .help ∈ flags then .ok .help
        else Progress.follow { p with choice := { p.choice with debug := true } } rest
      | .error e => .error e
  | .positional word :: rest =>
    if p.choice.input.isSome then (p.leave word).follow rest
    else
      let p : Progress := { p with choice := { p.choice with input := some word } }
      match rest with
      | .separator :: rest => p.follow rest
      | rest => p.follow rest
  | .separator :: rest =>
    if p.choice.input.isSome then (p.leave "--").follow rest
    else p.follow rest

end Progress

/-- What the words of a command line ask for, with the settings as defaults. -/
def wish (settings : Settings) (words : List String) : Except UsageError Wish := do
  Progress.follow ⟨.ofSettings settings, []⟩ (← Token.ofWords words)

/-! ## Jobs -/

/-- How the machine is to be run, and on what. -/
structure Job where
  input : Option String
  debug : Bool
  tapeLength : Int
  memoryWindow : Int
deriving DecidableEq, Repr

/-- An option whose value is asked for and is not there. -/
structure NoValue where
  option : Switch
deriving DecidableEq, Repr

/-- The complaint is about the comparison that the value was needed for: that
of the window with 0, or that of the tape length with 1. -/
def NoValue.message (e : NoValue) : String :=
  let comparison := if e.option = .memoryWindow then ">" else "<"
  "'" ++ comparison ++ "' not supported between instances of 'list' and 'int'"

/-- The job that a choice comes to. The window is looked at first. -/
def Choice.job (c : Choice) : Except NoValue Job :=
  match c.memoryWindow, c.tapeLength with
  | none, _ => .error ⟨.memoryWindow⟩
  | some _, none => .error ⟨.tapeLength⟩
  | some window, some length => .ok ⟨c.input, c.debug, length, window⟩

end TapeMachine.CommandLine
