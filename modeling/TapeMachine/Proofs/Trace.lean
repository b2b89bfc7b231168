/-
The characters a run does. `Run.trace` lists them, and what a plain run has
counted and taken from its input can be read off that list
(`Run.steps_counted`, `Run.steps_spent`).
-/
import TapeMachine.Proofs.Recurrence

namespace TapeMachine

open Machine Run Program

variable {s : Setup} {p : Program} {i n a b : Nat} {m m' : Machine} {r : Run}

/-- The machine of a run, wherever the run stands. -/
def Run.machine : Run → Machine
  | .going _ m => m
  | .ended _ m => m

/-! ## The characters a run does -/

namespace Run

/-- The characters that are done in `n` steps, in order; the one that fails is
among them. -/
def trace (s : Setup) (p : Program) : Nat → Run → List Char
  | 0, _ => []
  | _ + 1, .ended _ _ => []
  | n + 1, .going i m => p[i]?.toList ++ trace s p n (step s p (.going i m))

@[simp] theorem trace_zero : trace s p 0 r = [] := by cases r <;> rfl

@[simp] theorem trace_ended {f : Option Fault} : trace s p n (.ended f m) = [] := by cases n <;> rfl

theorem trace_going : trace s p (n + 1) (.going i m) = p[i]?.toList ++ trace s p n (step s p (.going i m)) := rfl

theorem trace_add : trace s p (a + b) r = trace s p a r ++ trace s p b (steps s p a r) := by
  induction a generalizing r with
  | zero => rw [Nat.zero_add, trace_zero, steps_zero, List.nil_append]
  | succ a ih =>
    cases r with
    | ended f m => rw [trace_ended, trace_ended, steps_ended, trace_ended, List.append_nil]
    | going i m => rw [Nat.succ_add, trace_going, ih, trace_going, steps_succ, List.append_assoc]

/-- At any time a run has done the first of what it has done in the end. -/
theorem trace_isPrefix {k : Nat} {f : Option Fault} (h : steps s p n r = .ended f m) :
    trace s p k r <+: trace s p n r := by
  rcases Nat.le_total k n with hk | hk
  · obtain ⟨c, rfl⟩ := Nat.exists_eq_add_of_le hk
    rw [trace_add]
    exact List.prefix_append _ _
  · obtain ⟨c, rfl⟩ := Nat.exists_eq_add_of_le hk
    rw [trace_add, h, trace_ended, List.append_nil]

end Run

/-- The run of a program ends in this way, and has done these characters. -/
structure Machine.Ends (s : Setup) (p : Program) (m : Machine) (t : List Char) (e : Ending) : Prop where
  run : m.run s p = some e
  trace : ∃ n, steps s p n (.going 0 (m.inside [])) = .ended e.fault e.machine ∧
    Run.trace s p n (.going 0 (m.inside [])) = t

theorem Machine.ends_of_steps {f : Option Fault} (h : steps s p n (.going 0 (m.inside [])) = .ended f m') :
    m.Ends s p (Run.trace s p n (.going 0 (m.inside []))) ⟨f, m'⟩ :=
  ⟨run_eq_some_iff.2 ⟨n, h⟩, n, h, rfl⟩

theorem Machine.exists_ends_of_run {e : Ending} (h : m.run s p = some e) : ∃ t, m.Ends s p t e := by
  obtain ⟨n, hn⟩ := run_eq_some_iff.1 h
  exact ⟨_, h, n, hn, rfl⟩

/-- A run does not end in two ways. -/
theorem Machine.Ends.unique {t t' : List Char} {e e' : Ending} (h : m.Ends s p t e) (h' : m.Ends s p t' e') :
    t = t' ∧ e = e' := by
  obtain ⟨hrun, n, hn, rfl⟩ := h
  obtain ⟨hrun', n', hn', rfl⟩ := h'
  refine ⟨?_, Option.some.inj (hrun.symm.trans hrun')⟩
  exact (trace_isPrefix hn').eq_of_length_le (trace_isPrefix hn).length_le

/-! ## What is counted -/

/-- How often a run has failed. -/
def Run.failures : Run → Nat
  | .ended (some _) _ => 1
  | _ => 0

/-- From the one machine to the other a program has read `k` times, and nothing
else was taken from the input; reads past its end are errors. -/
structure Machine.Spent (k : Nat) (m m' : Machine) : Prop where
  unread : m'.unread = m.unread.drop k
  reads : m'.tally.reads = m.tally.reads + min k m.unread.length
  readErrors : m'.tally.readErrors = m.tally.readErrors + (k - m.unread.length)

namespace Machine

theorem Spent.zero (hu : m'.unread = m.unread) (hr : m'.tally.reads = m.tally.reads)
    (he : m'.tally.readErrors = m.tally.readErrors) : m.Spent 0 m' :=
  ⟨hu, by rw [hr, Nat.zero_min, Nat.add_zero], by rw [he, Nat.zero_sub, Nat.add_zero]⟩

theorem Spent.trans {m'' : Machine} (h : m.Spent a m') (h' : m'.Spent b m'') : m.Spent (a + b) m'' where
  unread := by rw [h'.unread, h.unread, List.drop_drop]
  reads := by rw [h'.reads, h.reads, h.unread, List.length_drop]; omega
  readErrors := by rw [h'.readErrors, h.readErrors, h.unread, List.length_drop]; omega

theorem Spent.readItem : m.Spent 1 m.readItem.2 := by
  unfold Machine.readItem
  cases hu : m.unread with
  | nil => exact ⟨by simp [hu], by simp [hu], by simp [hu]⟩
  | cons b rest => exact ⟨by simp [hu], by simp [hu], by simp [hu]⟩

end Machine

theorem Command.ofChar?_eq_get_iff {c : Char} : Command.ofChar? c = some .get ↔ c = ',' :=
  Command.ofChar?_eq_some_iff

namespace Machine

/-- What a character that is no bracket does is one step, and a read exactly
if it is a `,`. -/
theorem spent_of_obey {c : Plain} (h : m.obey s c = .ok m') :
    m.Spent ([c.1].count ',') m' ∧ m'.tally.steps = m.tally.steps + 1 := by
  have ho := m.obeys (s := s) (c := c)
  rw [h] at ho
  by_cases hc : c.1 = ','
  · rw [Command.ofChar?_eq_get_iff.2 hc] at ho
    rw [hc]
    cases ho
    have hr := Spent.readItem (m := m)
    exact ⟨⟨hr.unread, hr.reads, hr.readErrors⟩, by rw [countStep, steps_readItem]⟩
  · rw [List.count_singleton, if_neg (by simpa using hc)]
    rw [← Command.ofChar?_eq_get_iff] at hc
    generalize Command.ofChar? c.1 = cmd at ho hc
    cases ho with
    | get => exact absurd rfl hc
    | comment | right | left | increment | decrement | put | report => exact ⟨.zero rfl rfl rfl, rfl⟩

theorem ne_get_of_obey {c : Plain} {f : Fault} (h : m.obey s c = .error f) : c.1 ≠ ',' := by
  have ho := m.obeys (s := s) (c := c)
  rw [h] at ho
  intro hc
  rw [Command.ofChar?_eq_get_iff.2 hc] at ho
  cases ho

end Machine

namespace Run

/-- A step counts itself unless it fails, and takes an item for every `,`. -/
theorem step_accounts (hs : s.debug = false) :
    r.machine.Spent ((trace s p 1 r).count ',') (r.step s p).machine ∧
      (r.step s p).machine.tally.steps + (r.step s p).failures =
        r.machine.tally.steps + r.failures + (trace s p 1 r).length := by
  cases r with
  | ended f m => exact ⟨.zero rfl rfl rfl, rfl⟩
  | going i m =>
    rw [trace_going, trace_zero, List.append_nil]
    cases hc : p[i]? with
    | none =>
      rw [step_past hc]
      exact ⟨.zero rfl rfl rfl, rfl⟩
    | some c =>
      rcases or_assoc.2 (char_cases c) with hb | ⟨c, rfl⟩
      · have hn : [c].count ',' = 0 := by rcases hb with rfl | rfl <;> rfl
        rw [Option.toList_some, hn]
        rcases step_bracket (m := m) hs hc hb with ⟨j, l, h⟩ | ⟨f, h⟩
        · rw [h m rfl rfl]
          exact ⟨.zero rfl rfl rfl, rfl⟩
        · rw [h m rfl rfl]
          exact ⟨.zero rfl rfl rfl, rfl⟩
      · cases ho : m.obey s c with
        | ok m' =>
          rw [(Dispatch.plain ho).step_eq_going hs hc]
          exact spent_of_obey ho
        | error f =>
          rw [(Dispatch.fault ho).step_eq hc, Option.toList_some, List.count_singleton,
            if_neg (by simpa using ne_get_of_obey ho)]
          exact ⟨.zero rfl rfl rfl, rfl⟩

theorem steps_spent (hs : s.debug = false) :
    r.machine.Spent ((trace s p n r).count ',') (steps s p n r).machine := by
  induction n generalizing r with
  | zero =>
    rw [trace_zero]
    exact .zero rfl rfl rfl
  | succ n ih =>
    rw [Nat.add_comm n, trace_add, List.count_append, steps_add]
    exact (step_accounts hs).1.trans ih

theorem steps_counted (hs : s.debug = false) :
    (steps s p n r).machine.tally.steps + (steps s p n r).failures =
      r.machine.tally.steps + r.failures + (trace s p n r).length := by
  induction n generalizing r with
  | zero => rw [trace_zero]; rfl
  | succ n ih =>
    rw [Nat.add_comm n, trace_add, List.length_append, steps_add, ih, ← Nat.add_assoc]
    exact congrArg (· + _) (step_accounts hs).2

end Run

/-- Whatever a character does, it is one step. -/
theorem Dispatch.counted {c : Char} {j : Nat} (hd : Dispatch s p i m c (.ok (j, m'))) :
    m'.tally.steps = m.tally.steps + 1 := by
  cases hd with
  | plain ho => exact (spent_of_obey ho).2
  | enter | skip | leave | back => rfl

/-- Pauses are no steps. -/
theorem Run.counted_of_going {j : Nat} (h : steps s p n (.going i m) = .going j m') :
    m'.tally.steps = m.tally.steps + n := by
  induction n generalizing i m with
  | zero =>
    cases h
    rfl
  | succ n ih =>
    rw [steps_succ] at h
    cases hr : step s p (.going i m) with
    | ended f m₁ =>
      rw [hr, steps_ended] at h
      cases h
    | going k m₁ =>
      rw [hr] at h
      obtain ⟨c, m₂, -, hd, hp, -⟩ := exists_dispatch_of_going hr
      rw [ih h, hp.tally, hd.counted, Nat.add_assoc, Nat.add_comm 1]

/-- A run that goes on has done a character with every step. -/
theorem Run.length_trace_of_going {j : Nat} (h : steps s p n (.going i m) = .going j m') :
    (trace s p n (.going i m)).length = n := by
  induction n generalizing i m with
  | zero => rfl
  | succ n ih =>
    rw [steps_succ] at h
    cases hr : step s p (.going i m) with
    | ended f m₁ =>
      rw [hr, steps_ended] at h
      cases h
    | going k m₁ =>
      obtain ⟨c, -, hc, -⟩ := exists_dispatch_of_going hr
      rw [hr] at h
      rw [trace_going, hr, hc, List.length_append, ih h, Option.toList_some, List.length_singleton, Nat.add_comm]

/-- The character that fails is not counted. Where the observer breaks a run off,
the last character is done. -/
theorem Machine.Ends.counted {t : List Char} {e : Ending} (h : m.Ends s p t e) :
    e.machine.tally.steps + (if e.fault = none ∨ e.fault = some .interrupted then 0 else 1) =
      m.tally.steps + t.length := by
  obtain ⟨n, hn, -⟩ := h.trace
  obtain ⟨k, j, m₁, hk, hlast⟩ := exists_last_step hn
  have hend : steps s p (k + 1) (.going 0 (m.inside [])) = .ended e.fault e.machine := by
    rw [steps_add, hk]
    exact hlast
  have hcount : m₁.tally.steps = m.tally.steps + k := counted_of_going (m := m.inside []) hk
  rw [(h.unique (ends_of_steps hend)).1, trace_add, hk, List.length_append, length_trace_of_going hk, trace_going,
    trace_zero, List.append_nil]
  rcases ended_cases hlast with ⟨hf, hc, hm⟩ | ⟨c, g, hf, hc, hd, hm⟩ | ⟨c, _, m₂, hf, hc, hd, hp, -⟩
  · rw [if_pos (.inl hf), hc, hm, hcount]
    rfl
  · rw [if_neg (by simp [hf, hd.ne_interrupted]), hc, hm, hcount]
    rfl
  · rw [if_pos (.inr hf), hc, hp.tally, hd.counted, hcount]
    rfl

/-- What a plain run that ends has counted. -/
theorem Machine.Ends.accounts {t : List Char} {e : Ending} (h : m.Ends s p t e) (hs : s.debug = false) :
    m.Spent (t.count ',') e.machine ∧
      e.machine.tally.steps + (if e.fault.isSome then 1 else 0) = m.tally.steps + t.length := by
  obtain ⟨-, n, hn, rfl⟩ := h
  have hspent := steps_spent (p := p) (n := n) (r := .going 0 (m.inside [])) hs
  have hcount := steps_counted (p := p) (n := n) (r := .going 0 (m.inside [])) hs
  rw [hn] at hspent hcount
  refine ⟨⟨hspent.unread, hspent.reads, hspent.readErrors⟩, ?_⟩
  rw [show m.tally.steps = (Run.going 0 (m.inside [])).machine.tally.steps + 0 from rfl]
  refine Eq.trans ?_ hcount
  cases e.fault <;> rfl

end TapeMachine
