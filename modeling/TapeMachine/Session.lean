/-
Sessions: one machine and operations on it from outside, one after the other.
Tape, counters and unread input carry over; each operation answers with a
value or a refusal and leaves the machine it acted on, whose transcript then
holds the events of that operation alone.
-/
import TapeMachine.Input
import TapeMachine.Run
import TapeMachine.Text.Latin1

namespace TapeMachine

/-- The size of the window a debugger draws when so many cells are asked for;
it shows one cell at least. -/
def Window.rangeOf (requested : Int) : Nat := max 1 requested.toNat

inductive Operation
  | run (p : Program)
  /-- A program given as bytes, each of them a character. -/
  | runBytes (bytes : List UInt8)
  /-- Where the loop whose body begins at `start` closes. -/
  | close (p : Program) (start : Int)
  | read
  | report
  | pause
  | window
  | seek (i : Nat)
  | poke (i : Nat) (v : UInt8)

/-- What an operation answers. -/
inductive Answer
  | nothing
  | byte (b : UInt8)
  | position (j : Int)
  | window (w : Window)
  | index (i : Nat)
deriving DecidableEq, Repr

/-- Why an operation has no answer. -/
inductive Refusal
  | fault (f : Fault)
  /-- A search was to start before the beginning of the text. -/
  | outsideText
deriving DecidableEq, Repr

def Refusal.message : Refusal → String
  | .fault f => f.message
  | .outsideText => "string index out of range"

/-- The search for the end of a loop, whatever position it is started at. -/
def Program.findClose (p : Program) (start : Int) : Except Refusal Int :=
  if start < -p.size then .error .outsideText
  else
    match p.close? start with
    | some j => .ok j
    | none => .error (.fault (.unclosed (start - 1)))

/-- The answer of an operation that ends in a fault or in nothing special. -/
def Answer.ofFault : Option Fault → Except Refusal Answer
  | none => .ok .nothing
  | some f => .error (.fault f)

namespace Machine

/-- A program run as an operation. -/
def runAnswer (s : Setup) (m : Machine) (p : Program) : Option (Except Refusal Answer × Machine) :=
  (m.run s p).map fun e => (Answer.ofFault e.fault, e.machine)

/-- One operation; `none` if it is a run that never ends. -/
def perform (s : Setup) (m : Machine) : Operation → Option (Except Refusal Answer × Machine)
  | .run p => m.runAnswer s p
  | .runBytes bytes => m.runAnswer s (Text.Latin1.decode bytes).toArray
  | .close p start => some ((p.findClose start).map .position, m)
  | .read =>
    let (b, m) := m.readItem
    some (.ok (.byte b), m)
  | .report => some (.ok .nothing, m.report s)
  | .pause =>
    let (f, m) := m.pause s
    some (Answer.ofFault f, m)
  | .window => some (.ok (.window (m.tape.window (s.view.getD 0))), m)
  | .seek i => some (.ok (.index i), { m with tape := (m.tape.seek? i).getD m.tape })
  | .poke i v => some (.ok (.byte v), { m with tape := (m.tape.poke? i v).getD m.tape })

end Machine

/-- An operation done: its answer and the machine after it. -/
structure Performed where
  answer : Except Refusal Answer
  machine : Machine

/-- The operations of a session, from a machine on. -/
def session (s : Setup) (m : Machine) : List Operation → Option (List Performed)
  | [] => some []
  | op :: ops => do
    let (answer, m') ← m.quiet.perform s op
    return ⟨answer, m'⟩ :: (← session s m' ops)

end TapeMachine
