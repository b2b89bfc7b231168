/-
Evaluation: a program run once on a blank tape of its own, silently. What it
writes is the result; its other messages are dropped.
-/
import TapeMachine.Input
import TapeMachine.Run
import TapeMachine.Text.Latin1

namespace TapeMachine

/-- Why an evaluation has no result. -/
inductive EvaluationError
  | input (e : Text.Latin1.Unencodable)
  | tape (e : NoCells)
  | fault (f : Fault)
deriving DecidableEq, Repr

def EvaluationError.message : EvaluationError → String
  | .input e => e.message
  | .tape e => e.message
  | .fault f => f.message

/-- The bytes of an input; a text has to be one that Latin-1 can write. -/
def Input.encoded : Input → Except Text.Latin1.Unencodable (List UInt8)
  | .bytes b => .ok b
  | .text s => Text.Latin1.encode s

/-- No reports, no windows, and pauses that do nothing. -/
def Setup.silent : Setup := { debug := false, view := none, pause := .silent }

/-- What a program writes, run on a blank tape of the given length; `none` if
the run never ends. The input is looked at before the tape. -/
def Program.evaluate (p : Program) (input : Input) (length : Int) : Option (Except EvaluationError String) :=
  match input.encoded with
  | .error e => some (.error (.input e))
  | .ok items =>
    match Tape.ofLength length with
    | .error e => some (.error (.tape e))
    | .ok tape =>
      ((Machine.start tape items).run .silent p).map fun ending =>
        match ending.fault with
        | some f => .error (.fault f)
        | none => .ok (ending.machine.log.textOn .output)

end TapeMachine
