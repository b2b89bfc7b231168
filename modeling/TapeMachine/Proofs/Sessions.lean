/-
Sessions of one machine, operation after operation. What an operation finds
is what the one before it left (`exists_performed`), and a failed run leaves
the machine that stood before the command that failed. Of the runs before it
a run knows the tape, the input that is left and the state of the observer;
the loops they were in are forgotten, and what they counted and noted only
stands before what is counted and noted now (`failure_leaves_machine`).
-/
import TapeMachine.Proofs.Record
import TapeMachine.Session

namespace TapeMachine

open Machine Run Program

variable {s : Setup} {p : Program} {m : Machine} {op : Operation} {ops : List Operation} {d : Performed}
  {done : List Performed}

/-! ## One operation after another -/

/-- The program that an operation runs, if it is a run. -/
def Operation.program? : Operation → Option Program
  | .run p => some p
  | .runBytes bytes => some (Text.Latin1.decode bytes).toArray
  | _ => none

theorem Machine.perform_of_program (h : op.program? = some p) :
    m.perform s op = (m.run s p).map fun e => (Answer.ofFault e.fault, e.machine) := by
  cases op with
  | run q =>
    cases h
    rfl
  | runBytes bytes =>
    cases h
    rfl
  | close | read | report | pause | window | seek | poke => cases h

/-- The machine that operations have led to. -/
def Machine.afterAll (m : Machine) (done : List Performed) : Machine := (done.map (·.machine)).getLastD m

theorem Machine.afterAll_cons : m.afterAll (d :: done) = d.machine.afterAll done := List.getLastD_cons ..

theorem session_cons :
    session s m (op :: ops) =
      (m.quiet.perform s op).bind fun x => (session s x.2 ops).map (⟨x.1, x.2⟩ :: ·) := by
  rw [session]
  cases m.quiet.perform s op with
  | none => rfl
  | some x =>
    cases h : session s x.2 ops <;> simp [h]

theorem session_snoc :
    session s m (ops ++ [op]) = (session s m ops).bind fun done =>
      ((m.afterAll done).quiet.perform s op).map fun x => done ++ [⟨x.1, x.2⟩] := by
  induction ops generalizing m with
  | nil =>
    rw [List.nil_append, session_cons]
    cases h : m.quiet.perform s op <;> simp [session, afterAll, h]
  | cons op' ops ih =>
    rw [List.cons_append, session_cons, session_cons]
    cases m.quiet.perform s op' with
    | none => rfl
    | some x =>
      rw [Option.bind_some, Option.bind_some, ih]
      cases session s x.2 ops with
      | none => rfl
      | some done =>
        rw [Option.bind_some, Option.map_some, Option.bind_some, afterAll_cons, Option.map_map]
        rfl

/-- An operation acts on the machine that those before it have led to. -/
theorem exists_performed {j : Nat} (h : session s m ops = some done) (hj : ops[j]? = some op) :
    ∃ d, done[j]? = some d ∧ (m.afterAll (done.take j)).quiet.perform s op = some (d.answer, d.machine) := by
  induction ops generalizing m done j with
  | nil => cases hj
  | cons op' ops ih =>
    rw [session_cons] at h
    obtain ⟨x, hx, h⟩ := Option.bind_eq_some_iff.1 h
    obtain ⟨done', hdone, rfl⟩ := Option.map_eq_some_iff.1 h
    cases j with
    | zero =>
      cases hj
      exact ⟨_, rfl, hx⟩
    | succ j =>
      obtain ⟨d, hd, hperform⟩ := ih hdone hj
      refine ⟨d, hd, ?_⟩
      rw [List.take_succ_cons, afterAll_cons]
      exact hperform

/-- All that operations have done, in one transcript. -/
def record (done : List Performed) : Transcript := (done.map (·.machine.log)).reverse.flatten

theorem record_cons : record (d :: done) = record done ++ d.machine.log := by simp [record]

theorem mem_record {e : Event} : e ∈ record done ↔ ∃ d ∈ done, e ∈ d.machine.log := by simp [record]

/-! ## What a run finds -/

/-- The machine with all that a run goes by, newly started: the tape, the input
that is left and the pauses that its observer has counted. -/
def Machine.renewed (m : Machine) : Machine := { start m.tape m.unread with pauses := m.pauses }

/-- A run goes as on a machine newly started, on top of what was counted before. -/
theorem Machine.run_quiet :
    m.quiet.run s p = (m.renewed.run s p).map fun e => ⟨e.fault, e.machine.onto m.tally []⟩ :=
  run_onto (m := m.renewed) (a := m.tally) (l := [])

/-- An older machine prints the same. -/
theorem Transcript.printed_later {n : Nat} {t : Transcript} : printed (t.map (Event.later n)) = t.printed := by
  have hevent : Event.printed ∘ Event.later n = Event.printed := by
    funext e
    cases e <;> rfl
  rw [printed, printed, ← List.map_reverse, List.filterMap_map, hevent]

/-- A command that fails leaves the machine that it found. -/
theorem Machine.exists_steps_of_fault {e : Ending} {f : Fault} (h : m.run s p = some e) (hf : e.fault = some f)
    (hne : f ≠ .interrupted) :
    ∃ k i, steps s p k (.going 0 (m.inside [])) = .going i e.machine ∧
      step s p (.going i e.machine) = .ended (some f) e.machine ∧ e.machine.tally.steps = m.tally.steps + k := by
  obtain ⟨n, hn⟩ := exists_steps_of_run h
  obtain ⟨k, i, m₁, hk, hlast⟩ := exists_last_step hn
  rw [hf] at hlast
  rcases ended_cases hlast with ⟨hnone, -⟩ | ⟨c, g, -, -, -, hm⟩ | ⟨c, j, m₂, hi, -⟩
  · cases hnone
  · rw [← hm] at hk hlast
    exact ⟨k, i, hk, hlast, counted_of_going (m := m.inside []) hk⟩
  · exact absurd (Option.some.inj hi) hne

/-- A failure leaves a machine that can go on. Where a run of a session fails,
it has done `k` commands, each of them with its report and pause if there was
one, and the machine is the one that they led to, in all that it is and has
noted: the command that fails adds nothing. And whatever the operations of a
session came to, a run that follows goes as it does on a machine newly
started with the same tape, the same input left and the same observer: it
ends if that run ends, in the same way, and leaves the same machine but for
what was counted before. -/
theorem failure_leaves_machine (h : session s m ops = some done) :
    (∀ j op p d f, ops[j]? = some op → op.program? = some p → done[j]? = some d →
      d.answer = .error (.fault f) → f ≠ .interrupted →
      ∃ k i, steps s p k (.going 0 ((m.afterAll (done.take j)).quiet.inside [])) = .going i d.machine ∧
        step s p (.going i d.machine) = .ended (some f) d.machine ∧
        d.machine.tally.steps = (m.afterAll (done.take j)).tally.steps + k) ∧
    ∀ op p, op.program? = some p →
      (session s m (ops ++ [op]) = ((m.afterAll done).renewed.run s p).map fun e =>
        done ++ [⟨Answer.ofFault e.fault, e.machine.onto (m.afterAll done).tally []⟩]) ∧
      ∀ e : Ending, (e.machine.onto (m.afterAll done).tally []).log.printed = e.machine.log.printed := by
  constructor
  · intro j op p d f hj hp hd hanswer hne
    obtain ⟨d', hd', hperform⟩ := exists_performed h hj
    obtain rfl : d = d' := Option.some.inj (hd.symm.trans hd')
    rw [perform_of_program hp] at hperform
    obtain ⟨e, hrun, heq⟩ := Option.map_eq_some_iff.1 hperform
    obtain ⟨hfault, hmachine⟩ := Prod.mk.inj heq
    have hf : e.fault = some f := by
      rw [hanswer] at hfault
      cases he : e.fault with
      | none => rw [he] at hfault; cases hfault
      | some g => rw [he] at hfault; cases hfault; rfl
    rw [← hmachine]
    exact exists_steps_of_fault hrun hf hne
  · intro op p hp
    refine ⟨?_, fun e => ?_⟩
    · rw [session_snoc, h, Option.bind_some, perform_of_program hp, run_quiet, Option.map_map, Option.map_map]
      rfl
    · rw [Machine.onto, List.append_nil, Transcript.printed_later]

/-- A run that fails inside a loop leaves it entered, but the `]` of the next
program does not go back to it. -/
theorem failed_loop_is_forgotten :
    (session {} (.start (.blank 2 (by decide)) []) [.run #['+', '[', '>', '>'], .run #['<', ']']]).map
      (fun done => done.map fun d => (d.answer, d.machine.loops)) =
      some [(.error (.fault (.overflow 2)), [1]), (.error (.fault (.unopened 1)), [])] := by
  have hfirst : session {} (.start (.blank 2 (by decide)) []) [.run #['+', '[', '>', '>']] = some _ := rfl
  have h := ((failure_leaves_machine hfirst).2 (.run #['<', ']']) _ rfl).1
  exact congrArg (Option.map fun done => done.map fun d : Performed => (d.answer, d.machine.loops)) h

end TapeMachine
