/-
What a run does with its history. What a machine has counted and noted before
makes no difference to a run (`Machine.run_onto`): it only stands before what
is counted and noted now.
-/
import TapeMachine.Proofs.Accounts
import TapeMachine.Proofs.Retelling

namespace TapeMachine

open Machine Run Program

variable {s : Setup} {p : Program} {m : Machine} {a : Tally} {l : Transcript}

/-! ## What was done before -/

/-- The event as it is noted of a machine that did `n` steps before. An observer
is the only one to see how many they are. -/
def Event.later (n : Nat) : Event → Event
  | .observed s => .observed { s with steps := n + s.steps }
  | e => e

/-- The machine with an older history before its own. -/
def Machine.onto (m : Machine) (a : Tally) (l : Transcript) : Machine :=
  { m with tally := a.add m.tally, log := m.log.map (Event.later a.steps) ++ l }

namespace Machine

theorem readItem_onto : (m.onto a l).readItem = (m.readItem.1, m.readItem.2.onto a l) := by
  obtain ⟨tape, loops, unread, tally, pauses, log⟩ := m
  cases unread <;> rfl

theorem pause_onto : (m.onto a l).pause s = ((m.pause s).1, (m.pause s).2.onto a l) := by
  unfold pause
  split
  · rfl
  · rfl
  · rfl
  · dsimp only [note, snapshot, onto]
    split <;> rfl

/-- Machines with a history do what they do without it. -/
theorem retelling_onto : Retelling s s (·.onto a l) where
  debug := rfl
  tape _ := rfl
  loops _ := rfl
  moved _ _ := rfl
  inside _ _ := rfl
  countStep _ := rfl
  put _ _ := rfl
  readItem _ := readItem_onto
  report _ := rfl
  between _ _ _ := rfl
  pause _ := pause_onto

/-- A run with an older history is the run without, the history put before. -/
theorem run_onto : (m.onto a l).run s p = (m.run s p).map fun e => ⟨e.fault, e.machine.onto a l⟩ :=
  retelling_onto.run

/-! ## What is in the transcript already -/

/-- The machine with an older transcript before its own. -/
def logged (m : Machine) (l : Transcript) : Machine := { m with log := m.log ++ l }

/-- A history in which nothing was counted is a transcript. -/
theorem onto_empty : m.onto {} l = m.logged l := by
  have hlater : Event.later 0 = id := by
    funext e
    cases e <;> simp [Event.later]
  simp [onto, logged, Tally.add, hlater]

/-- A run with an older transcript is the run without, its own transcript put
before. -/
theorem run_logged : (m.logged l).run s p = (m.run s p).map fun e => ⟨e.fault, e.machine.logged l⟩ := by
  simp only [← onto_empty, run_onto]

end Machine
end TapeMachine
