/-
Runs: a machine on its way through a program. `Run.step` does one character
of the program and is the whole meaning of a run; everything else here is
about how often to step.

A run that comes back to a place it has been at, with the same tape and the
same input left, goes round for ever. There are only so many places, so
enough steps decide whether a run ends. `Machine.run` takes them in strides
that double, so that few strides reach far, and answers `none` if the run has
not ended then. A run that ends is not stepped any further.
-/
import TapeMachine.Machine

namespace TapeMachine

/-- Where a run stands: about to do the character at the cursor, or ended,
with a fault or at the end of the program. -/
inductive Run
  | going (cursor : Nat) (m : Machine)
  | ended (fault : Option Fault) (m : Machine)

namespace Run

/-- The report and the pause that follow a step in a debugged run, as long as
something is left to do. -/
def afterStep (s : Setup) (p : Program) (c : Char) (j : Nat) (m : Machine) : Run :=
  if s.debug then
    match p[j]? with
    | none => .going j m
    | some d =>
      match (m.note (.step c d (m.tape.report s.view))).pause s with
      | (none, m) => .going j m
      | (some f, m) => .ended (some f) m
  else .going j m

/-- Does the character at the cursor. A run past the end of its program ends,
and a run that has ended stays as it is. -/
def step (s : Setup) (p : Program) : Run → Run
  | .ended f m => .ended f m
  | .going i m =>
    match p[i]? with
    | none => .ended none m
    | some c =>
      match m.act s p i (Command.ofChar? c) with
      | (.error f, m) => .ended (some f) m
      | (.ok j, m) => afterStep s p c j m.countStep

/-- Takes `n` steps. -/
def steps (s : Setup) (p : Program) : Nat → Run → Run
  | 0, r => r
  | n + 1, r => steps s p n (r.step s p)

/-- Takes `2 ^ k` steps, or as many as there are. -/
def stride (s : Setup) (p : Program) : Nat → Run → Run
  | 0, r => r.step s p
  | k + 1, r =>
    match stride s p k r with
    | .going i m => stride s p k (.going i m)
    | .ended f m => .ended f m

/-- How a run ended. -/
structure Ending where
  fault : Option Fault
  machine : Machine

/-- Strides of `2 ^ k`, `2 ^ (k + 1)` and so on steps, at most so many of
them, until the run has ended. -/
def finish (s : Setup) (p : Program) (r : Run) (k : Nat) : Nat → Option Ending
  | 0 => none
  | left + 1 =>
    match stride s p k r with
    | .ended f m => some ⟨f, m⟩
    | .going i m => finish s p (.going i m) (k + 1) left

end Run

namespace Machine

/-- So many strides that together they pass every place a run can be at: the
positions of the program and its end, those of the head, the contents of the
tape, the lengths of the input left, and the pauses an observer has counted. -/
def strides (s : Setup) (p : Program) (m : Machine) : Nat :=
  let limit := match s.pause with
    | .observe (some n) => n
    | _ => 0
  p.size + 9 * m.tape.size + m.unread.length + limit + m.pauses + 1

/-- Runs a program from its beginning, with no loop entered. -/
def run (s : Setup) (p : Program) (m : Machine) : Option Run.Ending :=
  Run.finish s p (.going 0 { m with loops := [] }) 0 (m.strides s p)

end Machine
end TapeMachine
