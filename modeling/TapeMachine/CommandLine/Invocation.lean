/-
An invocation of the command line: settings first, then the words of the
command line, then one machine that runs the programs one after the other.
Programs, the reads they make and the pauses of a debugged run all take from
the one standard input.
-/
import TapeMachine.CommandLine.Choice
import TapeMachine.CommandLine.Help
import TapeMachine.Run
import TapeMachine.Supply

namespace TapeMachine

/-- What is shown of a draw: in debugged runs its announcement, on a line. -/
def Draw.shown (d : Draw) (debug : Bool) : String :=
  match debug, d.announced with
  | true, some a => a.message ++ "\n"
  | _, _ => ""

namespace CommandLine

/-- Why an invocation stops before its programs have all been run. -/
inductive Failure
  | tape (e : NoCells)
  | unreadable (e : Unreadable)
  | fault (f : Fault)
deriving DecidableEq, Repr

def Failure.message : Failure → String
  | .tape e => e.message
  | .unreadable e => e.message
  | .fault f => f.message

/-- Programs run on a machine: what was shown, what stopped them, and the
machine after them. -/
structure Played where
  shown : String
  failure : Option Failure
  machine : Machine

/-- Runs the programs of a supply, at most `n` of them, until one fails;
`none` if one never ends. Announcements are shown in debugged runs only. -/
def play (fs : Files) (s : Setup) (supply : Supply) (m : Machine) : Nat → Option Played
  | 0 => some ⟨"", none, m⟩
  | n + 1 =>
    let d := supply.next fs m.unread
    let m := { m.quiet with unread := d.unread }
    let announced := d.shown s.debug
    match d.drawn with
    | .finished => some ⟨announced, none, m⟩
    | .unreadable e => some ⟨announced, some (.unreadable e), m⟩
    | .program text =>
      match m.run s (Program.ofString text) with
      | none => none
      | some ending =>
        let shown := announced ++ ending.machine.log.text
        match ending.fault with
        | some f => some ⟨shown, some (.fault f), ending.machine⟩
        | none =>
          (play fs s d.supply ending.machine n).map fun later => { later with shown := shown ++ later.shown }

/-- The setup that a job describes. -/
def Job.setup (j : Job) : Setup where
  debug := j.debug
  view := if 0 < j.memoryWindow then some j.memoryWindow.toNat else none
  pause := .prompt

/-- How an invocation ends: with an exit status, or broken off for want of a
value. -/
inductive Status
  | exit (code : Nat)
  | brokenOff (e : NoValue)
deriving DecidableEq, Repr

/-- An invocation that has ended: how, what it wrote, and the standard input
it left. -/
structure Outcome where
  status : Status
  output : String
  errors : String
  unread : List UInt8

/-- What is decided before a machine is built: to stop, or to run. -/
inductive Plan
  | stop (status : Status) (output errors : String)
  | run (j : Job)

/-- The plan that settings and the words of a command line make. Settings
that fail stop everything, whatever the words are. -/
def plan (settings : Except SettingsError Settings) (words : List String) : Plan :=
  match settings with
  | .error e => .stop (.exit 2) "" ("❌ Error: " ++ e.message ++ "\n")
  | .ok settings =>
    match wish settings words with
    | .error e => .stop (.exit 2) "" (usage ++ programName ++ ": error: " ++ e.message ++ "\n")
    | .ok .help => .stop (.exit 0) (helpText settings.tapeLength) ""
    | .ok (.run c) =>
      match c.job with
      | .error e => .stop (.brokenOff e) "" ""
      | .ok j => .run j

/-- The message about a failure. -/
def Failure.report (f : Failure) : String := "\n❌ Error: " ++ f.message ++ "\n"

/-- Does a job. Every program but the first takes an item of the input at
least. -/
def Job.carryOut (j : Job) (fs : Files) (input : List UInt8) : Option Outcome :=
  match Tape.ofLength j.tapeLength with
  | .error e => some ⟨.exit 1, "", Failure.report (.tape e), input⟩
  | .ok tape =>
    (play fs j.setup (.ofArgument j.input) (Machine.start tape input) (input.length + 2)).map fun p =>
      match p.failure with
      | none => ⟨.exit 0, p.shown, "", p.machine.unread⟩
      | some f => ⟨.exit 1, p.shown, f.report, p.machine.unread⟩

/-- Invokes the command line with the words after the program's name; `none`
if a program never ends. Warnings about the env file come before all else on
the error channel. -/
def invoke (fs : Files) (env : Environment) (words : List String) (input : List UInt8) : Option Outcome :=
  let loaded := Settings.load fs none env
  let outcome : Option Outcome :=
    match plan loaded.settings words with
    | .stop status output errors => some ⟨status, output, errors, input⟩
    | .run j => j.carryOut fs input
  outcome.map fun o => { o with errors := loaded.warnings ++ o.errors }

end CommandLine
end TapeMachine
