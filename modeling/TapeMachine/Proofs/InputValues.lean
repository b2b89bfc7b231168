/-
What a run knows of its input. An input is an endless sequence of values to a
program, its items and then zeros (`Input.value`), and a program that reads
`r` times has seen the first `r` of them and nothing else. So two inputs that
agree so far make no difference (`run_depends_on_values_read`), be they
bytes or text, and whether a zero was an item or the end of the input; only
the counters of reads and the complaints tell.
-/
import TapeMachine.Input
import TapeMachine.Proofs.Lockstep
import TapeMachine.Proofs.Record

namespace TapeMachine

open Machine Run Program

variable {s : Setup} {p : Program} {m m' : Machine}

/-- The value that the read after `k` others gives. -/
def Input.value (x : Input) (k : Nat) : UInt8 := x.items.getD k 0

/-- What an event prints, but for the complaints about reads. -/
def Event.uncomplaining : Event → Option (Channel × String)
  | .noInput => none
  | e => e.printed

def Transcript.uncomplaining (t : Transcript) : List (Channel × String) := t.reverse.filterMap Event.uncomplaining

namespace Transcript

theorem uncomplaining_append {t u : Transcript} : uncomplaining (t ++ u) = uncomplaining u ++ uncomplaining t := by
  simp [uncomplaining]

theorem uncomplaining_cons {e : Event} {t : Transcript} :
    uncomplaining (e :: t) = uncomplaining t ++ uncomplaining [e] :=
  uncomplaining_append (t := [e])

/-- Complaints are no output. -/
theorem textOn_output_eq_of_uncomplaining_eq {t u : Transcript} (h : t.uncomplaining = u.uncomplaining) :
    t.textOn .output = u.textOn .output := by
  have hkeep (e : Event) : e.uncomplaining.filter (·.1 = Channel.output) = e.printed.filter (·.1 = Channel.output) := by
    cases e <;> rfl
  exact textOn_eq_of_reading_eq hkeep h

end Transcript

theorem Machine.uncomplaining_readItem : m.readItem.2.log.uncomplaining = m.log.uncomplaining := by
  unfold readItem
  cases m.unread with
  | nil =>
    refine (Transcript.uncomplaining_append (t := [.noInput, .read none, .flush .output])).trans ?_
    exact List.append_nil _
  | cons b rest =>
    refine (Transcript.uncomplaining_append (t := [.read (some b), .flush .output])).trans ?_
    exact List.append_nil _

/-- The reads so far, found something or not. -/
def Tally.tries (t : Tally) : Nat := t.reads + t.readErrors

theorem Machine.tries_readItem : m.readItem.2.tally.tries = m.tally.tries + 1 := by
  unfold readItem
  cases m.unread with
  | nil => rfl
  | cons b rest => exact Nat.add_right_comm ..

/-- The machines of two runs on the inputs `x` and `y`, with as many reads
behind them; there had been `before` tries when the runs began. -/
structure Machine.Hears (x y : List UInt8) (before : Nat) (m m' : Machine) : Prop where
  tape : m.tape = m'.tape
  loops : m.loops = m'.loops
  steps : m.tally.steps = m'.tally.steps
  writes : m.tally.writes = m'.tally.writes
  log : m.log.uncomplaining = m'.log.uncomplaining
  heard : ∃ k, m.unread = x.drop k ∧ m'.unread = y.drop k ∧ m.tally.tries = before + k

/-- Runs keep this while they read values on which the inputs agree. -/
theorem Machine.Hears.lockstep {x y : List UInt8} {before r : Nat} (h : ∀ k < r, x.getD k 0 = y.getD k 0) :
    Lockstep s (fun run => run.machine.tally.tries ≤ before + r) (Hears x y before) where
  cell hr := congrArg Tape.cell hr.tape
  loops hr := hr.loops
  bracket hr := ⟨hr.tape, rfl, congrArg (· + 1) hr.steps, hr.writes, hr.log, hr.heard⟩
  plain {i m m' m₁ cmd} hr ho hok := by
    obtain ⟨ht, hl, hs, hw, hlog, hheard⟩ := hr
    cases ho with
    | comment => exact ⟨_, .comment, ht, hl, congrArg (· + 1) hs, hw, hlog, hheard⟩
    | right ho => exact ⟨_, .right (ht ▸ ho), rfl, hl, congrArg (· + 1) hs, hw, hlog, hheard⟩
    | left ho => exact ⟨_, .left (ht ▸ ho), rfl, hl, congrArg (· + 1) hs, hw, hlog, hheard⟩
    | increment =>
      exact ⟨_, .increment, congrArg (fun t => t.write (t.cell + 1)) ht, hl, congrArg (· + 1) hs, hw, hlog, hheard⟩
    | decrement =>
      exact ⟨_, .decrement, congrArg (fun t => t.write (t.cell - 1)) ht, hl, congrArg (· + 1) hs, hw, hlog, hheard⟩
    | put =>
      refine ⟨_, .put, ht, hl, congrArg (· + 1) hs, congrArg (· + 1) hw, ?_, hheard⟩
      simp only [countStep]
      rw [Transcript.uncomplaining_cons, Transcript.uncomplaining_cons (t := m'.log), hlog, ht]
    | report =>
      refine ⟨_, .report, ht, hl, congrArg (· + 1) hs, hw, ?_, hheard⟩
      simp only [countStep, Machine.report, note]
      rw [Transcript.uncomplaining_cons, Transcript.uncomplaining_cons (t := m'.log), hlog, ht]
    | get =>
      obtain ⟨k, hx, hy, hk⟩ := hheard
      have htries : m.tally.tries + 1 ≤ before + r := by
        rw [← tries_readItem]
        exact hok
      have hvalue : m.readItem.1 = m'.readItem.1 := by
        rw [readItem_fst, readItem_fst, hx, hy]
        have := h k (by omega)
        simpa [List.headD_eq_head?_getD, List.getD_eq_getElem?_getD] using this
      refine ⟨_, .get, ?_, ?_, ?_, ?_, ?_, k + 1, ?_, ?_, ?_⟩
      · simp only [countStep, ht, hvalue]
      · simpa [countStep] using hl
      · simpa [countStep] using hs
      · simpa [countStep] using hw
      · simpa only [countStep, uncomplaining_readItem] using hlog
      · simp [countStep, hx]
      · simp [countStep, hy]
      · simp only [countStep]
        exact tries_readItem.trans (by rw [hk, Nat.add_assoc])
  fault {m m' f cmd} hr ho hok := by
    cases ho with
    | pastRight ho => rw [hr.tape] at ho ⊢; exact .pastRight ho
    | pastLeft ho => rw [hr.tape] at ho ⊢; exact .pastLeft ho

theorem Machine.Spent.tries {k : Nat} (h : m.Spent k m') : m'.tally.tries = m.tally.tries + k := by
  rw [Tally.tries, Tally.tries, h.reads, h.readErrors]
  omega

/-- As long as a run goes on, it has tried no more reads than in the end. -/
theorem Machine.Ends.tries_le {t : List Char} {e : Ending} (h : m.Ends s p t e) (hs : s.debug = false) (k : Nat) :
    (steps s p k (.going 0 (m.inside []))).machine.tally.tries ≤ m.tally.tries + t.count ',' := by
  obtain ⟨-, n, hn, rfl⟩ := h
  rw [(steps_spent hs).tries]
  exact Nat.add_le_add_left ((trace_isPrefix hn).sublist.count_le ',') _

/-- A run that has read `r` times depends on the first `r` values of its input
and on nothing else: on an input with the same ones, be it bytes or text,
it does the same characters and ends in the same way, on the same tape, in
the same loops, after the same steps and writes, and having printed the
same but for complaints. Of each input just the first `r` items are gone,
as far as there were any, and the other reads are errors. -/
theorem run_depends_on_values_read (hs : s.debug = false) {x y : Input} {t : List Char} {e : Ending}
    (h : Ends s p { m with unread := x.items } t e) (hxy : ∀ k < t.count ',', x.value k = y.value k) :
    ∃ e', Ends s p { m with unread := y.items } t e' ∧
      e'.fault = e.fault ∧ e'.machine.tape = e.machine.tape ∧ e'.machine.loops = e.machine.loops ∧
      e'.machine.tally.steps = e.machine.tally.steps ∧ e'.machine.tally.writes = e.machine.tally.writes ∧
      (∃ u u', e.machine.log = u ++ m.log ∧ e'.machine.log = u' ++ m.log ∧
        u'.textOn .output = u.textOn .output ∧ u'.uncomplaining = u.uncomplaining) ∧
      Spent (t.count ',') { m with unread := x.items } e.machine ∧
      Spent (t.count ',') { m with unread := y.items } e'.machine := by
  have hstart : Hears x.items y.items m.tally.tries (inside { m with unread := x.items } [])
      (inside { m with unread := y.items } []) :=
    ⟨rfl, rfl, rfl, rfl, rfl, 0, rfl, rfl, rfl⟩
  obtain ⟨m₁, hy, hr⟩ := (Hears.lockstep hxy).ends hs hstart h (h.tries_le hs)
  obtain ⟨u, hu⟩ := exists_log_of_run h.run
  obtain ⟨u', hu'⟩ := exists_log_of_run hy.run
  have hlog : u'.uncomplaining = u.uncomplaining := by
    have := hr.log
    rw [hu, hu', Transcript.uncomplaining_append, Transcript.uncomplaining_append] at this
    exact (List.append_cancel_left this).symm
  exact ⟨_, hy, rfl, hr.tape.symm, hr.loops.symm, hr.steps.symm, hr.writes.symm,
    ⟨u, u', hu, hu', Transcript.textOn_output_eq_of_uncomplaining_eq hlog, hlog⟩, (h.accounts hs).1,
    (hy.accounts hs).1⟩

/-- To `,[.,]` the byte `A` is like the text `AĀB`: after the `A` there is
a 0, which is the end of the one and an item of the other. -/
theorem echo_stops_at_zero_item :
    ∃ e', Ends {} #[',', '[', '.', ',', ']'] { Machine.start (.blank 1 (by decide)) [] with
        unread := (Input.text ['A', 'Ā', 'B']).items } [',', '[', '.', ',', ']'] e' ∧
      e'.fault = none ∧ e'.machine.tally.reads = 2 ∧ e'.machine.tally.readErrors = 0 ∧
      e'.machine.unread = [66] := by
  obtain ⟨e', he, hf, -, -, -, -, -, -, hspent⟩ := run_depends_on_values_read (s := {}) rfl
    (m := .start (.blank 1 (by decide)) []) (p := #[',', '[', '.', ',', ']']) (x := .bytes [65])
    (y := .text ['A', 'Ā', 'B']) (t := [',', '[', '.', ',', ']']) (ends_of_steps (n := 6) (f := none) rfl) (by decide)
  exact ⟨e', he, hf, hspent.reads, hspent.readErrors, hspent.unread⟩

end TapeMachine
