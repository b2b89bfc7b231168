/-
Runs told in another way. A run looks at the tape, the loops, the input and
the pauses of its machine. Whatever else is changed about machines, in their
counters or in their transcripts, if what one command does is changed along
with it (`Machine.Retelling`), then so is every step and every run
(`Machine.Retelling.run`).
-/
import TapeMachine.Proofs.Recurrence

namespace TapeMachine

open Machine Run Program

variable {s s' : Setup} {p : Program} {i j n : Nat} {m : Machine} {r : Run} {c : Char} {g : Machine → Machine}

/-- What machines do in one setup, their retold selves do in the other: they are
at the same cells, in the same loops, and what is counted and noted of the
one can as well be counted and noted of the other. -/
structure Machine.Retelling (s s' : Setup) (g : Machine → Machine) : Prop where
  debug : s'.debug = s.debug
  tape (m : Machine) : (g m).tape = m.tape
  loops (m : Machine) : (g m).loops = m.loops
  moved (m : Machine) (t : Tape) : g { m with tape := t } = { g m with tape := t }
  inside (m : Machine) (l : List Nat) : g (m.inside l) = (g m).inside l
  countStep (m : Machine) : g m.countStep = (g m).countStep
  put (m : Machine) (c : Char) :
    g { m with tally := { m.tally with writes := m.tally.writes + 1 }, log := .put c :: m.log } =
      { g m with tally := { (g m).tally with writes := (g m).tally.writes + 1 }, log := .put c :: (g m).log }
  readItem (m : Machine) : (g m).readItem = (m.readItem.1, g m.readItem.2)
  report (m : Machine) : g (m.report s) = (g m).report s'
  between (m : Machine) (c d : Char) :
    g (m.note (.step c d (m.tape.report s.view))) = (g m).note (.step c d (m.tape.report s'.view))
  pause (m : Machine) : (g m).pause s' = ((m.pause s).1, g (m.pause s).2)

/-- The run with its machine retold, standing where it stands. -/
def Run.retold (g : Machine → Machine) : Run → Run
  | .going i m => .going i (g m)
  | .ended f m => .ended f (g m)

namespace Machine.Retelling

variable (hg : Retelling s s' g)
include hg

theorem obeys {cmd : Option Command} {e : Except Fault Machine} (h : Obeys s m cmd e) :
    Obeys s' (g m) cmd (e.map g) := by
  cases h with
  | comment =>
    rw [Except.map, hg.countStep]
    exact .comment
  | @right t ht =>
    rw [Except.map, hg.countStep, hg.moved m t]
    exact .right (by rw [hg.tape, ht])
  | pastRight ht =>
    have h := Obeys.pastRight (s := s') (m := g m) (by rw [hg.tape, ht])
    rwa [hg.tape] at h
  | @left t ht =>
    rw [Except.map, hg.countStep, hg.moved m t]
    exact .left (by rw [hg.tape, ht])
  | pastLeft ht =>
    have h := Obeys.pastLeft (s := s') (m := g m) (by rw [hg.tape, ht])
    rwa [hg.tape] at h
  | increment =>
    rw [Except.map, hg.countStep, hg.moved m (m.tape.write (m.tape.cell + 1)), ← hg.tape m]
    exact .increment
  | decrement =>
    rw [Except.map, hg.countStep, hg.moved m (m.tape.write (m.tape.cell - 1)), ← hg.tape m]
    exact .decrement
  | put =>
    rw [Except.map, hg.countStep, hg.put, ← hg.tape m]
    exact .put
  | get =>
    have h := Obeys.get (s := s') (m := g m)
    rw [hg.readItem, hg.tape, ← hg.moved, ← hg.countStep] at h
    exact h
  | report =>
    rw [Except.map, hg.countStep, hg.report]
    exact .report

theorem obey {c : Plain} : (g m).obey s' c = (m.obey s c).map g := (hg.obeys m.obeys).obey_eq

theorem dispatch {e : Except Fault (Nat × Machine)} (hd : Dispatch s p i m c e) :
    Dispatch s' p i (g m) c (e.map fun x => (x.1, g x.2)) := by
  have hcell : (g m).tape.cell = m.tape.cell := congrArg Tape.cell (hg.tape m)
  cases hd with
  | plain ho => exact .plain (by rw [hg.obey, ho, Except.map])
  | fault ho => exact .fault (by rw [hg.obey, ho, Except.map])
  | enter hz =>
    have h : Dispatch s' p i (g m) '[' (.ok (i + 1, ((g m).inside (i :: (g m).loops)).countStep)) :=
      .enter (hcell ▸ hz)
    rw [hg.loops, ← hg.inside, ← hg.countStep] at h
    exact h
  | @skip j hz hp =>
    have h : Dispatch s' p i (g m) '[' (.ok (j + 1, (g m).countStep)) := .skip (hcell ▸ hz) hp
    rw [← hg.countStep] at h
    exact h
  | unclosed hz hp => exact .unclosed (hcell ▸ hz) hp
  | leave hz =>
    have h : Dispatch s' p i (g m) ']' (.ok (i + 1, ((g m).inside (g m).loops.tail).countStep)) :=
      .leave (hcell ▸ hz)
    rw [hg.loops, ← hg.inside, ← hg.countStep] at h
    exact h
  | @back k l hz hl =>
    have h : Dispatch s' p i (g m) ']' (.ok (k + 1, (g m).countStep)) := .back (hcell ▸ hz) ((hg.loops m).trans hl)
    rw [← hg.countStep] at h
    exact h
  | unopened hz hl => exact .unopened (hcell ▸ hz) ((hg.loops m).trans hl)

theorem afterStep : Run.afterStep s' p c j (g m) = (Run.afterStep s p c j m).retold g := by
  unfold Run.afterStep
  rw [hg.debug]
  split
  · cases p[j]? with
    | none => rfl
    | some d =>
      dsimp only
      rw [hg.tape, ← hg.between, hg.pause]
      obtain ⟨f, m'⟩ := (m.note (.step c d (m.tape.report s.view))).pause s
      cases f <;> rfl
  · rfl

theorem step : Run.step s' p (r.retold g) = (Run.step s p r).retold g := by
  cases r with
  | ended f m => rfl
  | going i m =>
    rcases step_cases (s := s) (p := p) (i := i) (m := m) with ⟨hc, he⟩ | ⟨c, e, hc, hd, he⟩
    · rw [he]
      exact step_past hc
    · rw [he]
      refine ((hg.dispatch hd).step_eq hc).trans ?_
      cases e with
      | error f => rfl
      | ok e => exact hg.afterStep

theorem steps : Run.steps s' p n (r.retold g) = (Run.steps s p n r).retold g := by
  induction n generalizing r with
  | zero => rfl
  | succ n ih => rw [steps_succ, hg.step, ih, steps_succ]

/-- A retold run is the run of the retold machine: it ends if that ends, and in
the same way. -/
theorem run : (g m).run s' p = (m.run s p).map fun e => ⟨e.fault, g e.machine⟩ := by
  have h (n : Nat) : Run.steps s' p n (.going 0 ((g m).inside [])) =
      (Run.steps s p n (.going 0 (m.inside []))).retold g := by
    rw [← hg.inside]
    exact hg.steps (r := .going 0 (m.inside []))
  ext e
  rw [run_eq_some_iff, Option.map_eq_some_iff]
  constructor
  · intro he
    obtain ⟨n, hn⟩ := he
    rw [h] at hn
    cases hr : Run.steps s p n (.going 0 (m.inside [])) with
    | going i m' => rw [hr] at hn; cases hn
    | ended f m' =>
      rw [hr] at hn
      refine ⟨⟨f, m'⟩, run_eq_some_iff.2 ⟨n, hr⟩, ?_⟩
      cases e
      cases hn
      rfl
  · intro he
    obtain ⟨e', he', rfl⟩ := he
    obtain ⟨n, hn⟩ := run_eq_some_iff.1 he'
    exact ⟨n, by rw [h, hn]; rfl⟩

end Machine.Retelling
end TapeMachine
