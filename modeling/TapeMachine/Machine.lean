/-
The machine: a tape, the loops a program has entered, the input it has not
read yet, four counters and a transcript. Here is what a machine does by
itself and at one command; going through a program is `TapeMachine.Run`.

A command that fails leaves the machine as it found it, which is why every
outcome, a fault as well, comes with a machine.
-/
import TapeMachine.Program
import TapeMachine.Transcript

namespace TapeMachine

/-- What happens when a debugged run pauses. -/
inductive Pause
  /-- Print a prompt and take one item of input as the acknowledgement. -/
  | prompt
  | silent
  /-- Note a snapshot. With a limit, every `limit`-th pause breaks the run off. -/
  | observe (limit : Option Nat)
deriving DecidableEq, Repr

/-- How a machine is run: with a report and a pause after every step or not,
with how many cells of tape in its reports, and with which pause. -/
structure Setup where
  debug : Bool := false
  view : Option Nat := none
  pause : Pause := .prompt
deriving DecidableEq, Repr

/-- Why a run stops before the end of its program. -/
inductive Fault
  /-- The head was to move to a place that is not on the tape. -/
  | overflow (place : Int)
  /-- A loop body that begins right after `position` has no end. -/
  | unclosed (position : Int)
  /-- A `]` was to jump back and no loop was entered. -/
  | unopened (position : Nat)
  /-- The observer of the pauses broke the run off. -/
  | interrupted
deriving DecidableEq, Repr

def Fault.message : Fault → String
  | .overflow place => s!"Memory overflow (pointer={place})"
  | .unclosed _ => "Matching bracket not found!"
  | .unopened position => s!"Unmatched ']' at position {position}"
  | .interrupted => "pause limit reached"

/-- What a machine has done so far, in numbers. -/
structure Tally where
  reads : Nat := 0
  readErrors : Nat := 0
  writes : Nat := 0
  steps : Nat := 0
deriving DecidableEq, Repr

structure Machine where
  tape : Tape
  /-- Where the entered loops begin, innermost first. -/
  loops : List Nat
  unread : List UInt8
  tally : Tally
  /-- Pauses observed since the start or since the last interruption. -/
  pauses : Nat
  log : Transcript

namespace Machine

/-- A machine that has done nothing yet. -/
def start (tape : Tape) (input : List UInt8) : Machine where
  tape := tape
  loops := []
  unread := input
  tally := {}
  pauses := 0
  log := []

/-- The machine with its transcript put away. -/
def quiet (m : Machine) : Machine := { m with log := [] }

def note (m : Machine) (e : Event) : Machine := { m with log := e :: m.log }

def snapshot (m : Machine) : Snapshot :=
  ⟨m.tape, m.loops.reverse, m.tally.steps⟩

/-- Reads one item for the program. Pending output is shown first; at the end
of the input the machine complains and the item is 0. -/
def readItem (m : Machine) : UInt8 × Machine :=
  match m.unread with
  | [] =>
    (0, { m with
      tally := { m.tally with readErrors := m.tally.readErrors + 1 }
      log := .noInput :: .read none :: .flush .output :: m.log })
  | b :: rest =>
    (b, { m with
      unread := rest
      tally := { m.tally with reads := m.tally.reads + 1 }
      log := .read (some b) :: .flush .output :: m.log })

/-- Prints the state report. -/
def report (s : Setup) (m : Machine) : Machine := m.note (.state (m.tape.report s.view))

/-- Pauses; the fault is there when the observer breaks the run off. -/
def pause (s : Setup) (m : Machine) : Option Fault × Machine :=
  match s.pause with
  | .prompt =>
    (none, { m with
      unread := m.unread.tail
      log := .acknowledge m.unread.head? :: .flush .diagnostics :: .flush .output :: .prompt :: m.log })
  | .silent => (none, m)
  | .observe none => (none, m.note (.observed m.snapshot))
  | .observe (some limit) =>
    let m := m.note (.observed m.snapshot)
    if m.pauses + 1 = limit then (some .interrupted, { m with pauses := 0 })
    else (none, { m with pauses := m.pauses + 1 })

/-- Does what stands at position `i` of the program: the position to go on
at, or the fault, and the machine after it. -/
def act (s : Setup) (p : Program) (i : Nat) (m : Machine) : Option Command → Except Fault Nat × Machine
  | none => (.ok (i + 1), m)
  | some .right =>
    match m.tape.right? with
    | some t => (.ok (i + 1), { m with tape := t })
    | none => (.error (.overflow (m.tape.head + 1)), m)
  | some .left =>
    match m.tape.left? with
    | some t => (.ok (i + 1), { m with tape := t })
    | none => (.error (.overflow (m.tape.head - 1)), m)
  | some .increment => (.ok (i + 1), { m with tape := m.tape.write (m.tape.cell + 1) })
  | some .decrement => (.ok (i + 1), { m with tape := m.tape.write (m.tape.cell - 1) })
  | some .put =>
    (.ok (i + 1), { m with
      tally := { m.tally with writes := m.tally.writes + 1 }
      log := .put (Char.ofUInt8 m.tape.cell) :: m.log })
  | some .get =>
    let (b, m) := m.readItem
    (.ok (i + 1), { m with tape := m.tape.write b })
  | some .enter =>
    if m.tape.cell = 0 then
      match p.close? (i + 1) with
      | some j => (.ok (j.toNat + 1), m)
      | none => (.error (.unclosed i), m)
    else (.ok (i + 1), { m with loops := i :: m.loops })
  | some .leave =>
    if m.tape.cell = 0 then (.ok (i + 1), { m with loops := m.loops.tail })
    else
      match m.loops with
      | [] => (.error (.unopened i), m)
      | k :: _ => (.ok (k + 1), m)
  | some .report => (.ok (i + 1), m.report s)

/-- One more step done. -/
def countStep (m : Machine) : Machine :=
  { m with tally := { m.tally with steps := m.tally.steps + 1 } }

/-! ## What a read does -/

@[simp] theorem readItem_fst {m : Machine} : m.readItem.1 = m.unread.headD 0 := by
  unfold readItem
  cases m.unread <;> rfl

@[simp] theorem tape_readItem {m : Machine} : m.readItem.2.tape = m.tape := by
  unfold readItem
  cases m.unread <;> rfl

@[simp] theorem loops_readItem {m : Machine} : m.readItem.2.loops = m.loops := by
  unfold readItem
  cases m.unread <;> rfl

@[simp] theorem unread_readItem {m : Machine} : m.readItem.2.unread = m.unread.tail := by
  unfold readItem
  split
  · next h => simp [h]
  · next h => simp [h]

@[simp] theorem writes_readItem {m : Machine} : m.readItem.2.tally.writes = m.tally.writes := by
  unfold readItem
  cases m.unread <;> rfl

@[simp] theorem steps_readItem {m : Machine} : m.readItem.2.tally.steps = m.tally.steps := by
  unfold readItem
  cases m.unread <;> rfl

end Machine
end TapeMachine
