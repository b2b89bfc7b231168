/-
Loops as a structure. A balanced text is a block, and blocks have a meaning
of their own that knows no cursor, no stack and no search for brackets
(`Block.Evaluates`). A run goes the same way: it ends exactly if the
evaluation of the block does, in the same way and with the same machine,
but for the stack (`run_iff_evaluates`).

The stack is what a run has and the evaluation has not, so a relation on
machines is matched with a stretch of text together with the stacks before
and after it (`Realises`).
-/
import TapeMachine.Proofs.Recurrence

namespace TapeMachine

open Run Program

variable {s : Setup} {p : Program} {i j n : Nat} {l : List Nat} {m m' : Machine}

/-! ## The meaning of a block -/

/-- What a character that is no bracket does, as an ending. -/
def Machine.attempt (s : Setup) (c : Plain) (m : Machine) : Ending :=
  match m.obey s c with
  | .ok m' => ⟨none, m'⟩
  | .error f => ⟨some f, m⟩

/-- One after the other; a fault of the first is the end. -/
inductive Then (first next : Machine → Ending → Prop) : Machine → Ending → Prop
  | both {m m' : Machine} {e : Ending} : first m ⟨none, m'⟩ → next m' e → Then first next m e
  | fault {m m' : Machine} {f : Fault} : first m ⟨some f, m'⟩ → Then first next m ⟨some f, m'⟩

/-- The body and the `]` in turn, until the cell is 0 at the `]`. -/
inductive Rounds (body : Machine → Ending → Prop) : Machine → Ending → Prop
  | last {m m' : Machine} : body m ⟨none, m'⟩ → m'.tape.cell = 0 → Rounds body m ⟨none, m'.countStep⟩
  | again {m m' : Machine} {e : Ending} :
    body m ⟨none, m'⟩ → m'.tape.cell ≠ 0 → Rounds body m'.countStep e → Rounds body m e
  | fault {m m' : Machine} {f : Fault} : body m ⟨some f, m'⟩ → Rounds body m ⟨some f, m'⟩

/-- The `[`, which is a step by itself, and the rounds if the cell is not 0. -/
inductive Loop (body : Machine → Ending → Prop) : Machine → Ending → Prop
  | skip {m : Machine} : m.tape.cell = 0 → Loop body m ⟨none, m.countStep⟩
  | enter {m : Machine} {e : Ending} : m.tape.cell ≠ 0 → Rounds body m.countStep e → Loop body m e

/-- What a block does, structure by structure. -/
def Block.Evaluates (s : Setup) : Block → Machine → Ending → Prop
  | done => fun m e => e = ⟨none, m⟩
  | plain c rest => Then (fun m e => e = m.attempt s c) (rest.Evaluates s)
  | loop body rest => Then (Loop (body.Evaluates s)) (rest.Evaluates s)

/-! ## Facts about evaluation -/

theorem Machine.loops_countStep : m.countStep.loops = m.loops := rfl

theorem Machine.eq_attempt_complete_iff {c : Plain} : ⟨none, m'⟩ = m.attempt s c ↔ m.obey s c = .ok m' := by
  unfold attempt
  cases m.obey s c with
  | ok m₁ => simp [eq_comm]
  | error f => simp

theorem Machine.eq_attempt_fault_iff {c : Plain} {f : Fault} :
    ⟨some f, m'⟩ = m.attempt s c ↔ m.obey s c = .error f ∧ m' = m := by
  unfold attempt
  cases m.obey s c with
  | ok m₁ => simp
  | error g => simp [eq_comm]

/-- A relation of endings that faults by leaving the tape only, and has
nothing to do with the stack. -/
structure Tame (R : Machine → Ending → Prop) : Prop where
  loops : ∀ {m e}, R m e → e.machine.loops = m.loops
  fault : ∀ {m m' f}, R m ⟨some f, m'⟩ → ∃ place, f = .overflow place

theorem Tame.attempt {c : Plain} : Tame fun m e => e = m.attempt s c := by
  refine ⟨?_, ?_⟩
  · intro m e h
    obtain ⟨f, m'⟩ := e
    cases f with
    | none => exact Machine.loops_of_obey (Machine.eq_attempt_complete_iff.1 h)
    | some f => exact congrArg Machine.loops (Machine.eq_attempt_fault_iff.1 h).2
  · intro m m' f h
    exact Machine.overflow_of_obey (Machine.eq_attempt_fault_iff.1 h).1

theorem Tame.then {first next : Machine → Ending → Prop} (h₁ : Tame first) (h₂ : Tame next) :
    Tame (Then first next) := by
  refine ⟨?_, ?_⟩
  · intro m e h
    cases h with
    | both hf hn => exact (h₂.loops hn).trans (h₁.loops hf)
    | fault hf => exact h₁.loops hf
  · intro m m' f h
    cases h with
    | both _ hn => exact h₂.fault hn
    | fault hf => exact h₁.fault hf

theorem Tame.rounds {body : Machine → Ending → Prop} (h : Tame body) : Tame (Rounds body) := by
  refine ⟨?_, ?_⟩
  · intro m e hr
    induction hr with
    | last hb _ => exact Machine.loops_countStep.trans (h.loops hb)
    | again hb _ _ ih => exact ih.trans (Machine.loops_countStep.trans (h.loops hb))
    | fault hb => exact h.loops hb
  · intro m m' f hr
    generalize he : (⟨some f, m'⟩ : Ending) = e at hr
    induction hr with
    | last hb _ => cases he
    | again _ _ _ ih => exact ih he
    | fault hb => cases he; exact h.fault hb

theorem Tame.loop {body : Machine → Ending → Prop} (h : Tame body) : Tame (Loop body) := by
  refine ⟨?_, ?_⟩
  · intro m e hl
    cases hl with
    | skip _ => rfl
    | enter _ hr => exact (h.rounds.loops hr).trans Machine.loops_countStep
  · intro m m' f hl
    cases hl with
    | enter _ hr => exact h.rounds.fault hr

theorem Block.tame {b : Block} : Tame (b.Evaluates s) := by
  induction b with
  | done =>
    refine ⟨?_, ?_⟩
    · intro m e h
      obtain rfl := h
      rfl
    · intro m m' f h
      cases h
  | plain c rest ih => exact Tame.attempt.then ih
  | loop body rest ihb ihr => exact ihb.loop.then ihr

/-! ## Relations and stretches of text -/

/-- From cursor `i` inside the loops `l` on, a run does what the relation
says and comes out at cursor `j` inside the loops `k`, if it comes out. -/
structure Realises (s : Setup) (p : Program) (R : Machine → Ending → Prop) (i : Nat) (l : List Nat)
    (j : Nat) (k : List Nat) : Prop where
  complete : ∀ {m m'}, R m ⟨none, m'⟩ →
    ∃ n, steps s p n (.going i (m.inside l)) = .going j (m'.inside k)
  fault : ∀ {m m' f}, R m ⟨some f, m'⟩ →
    ∃ n l', steps s p n (.going i (m.inside l)) = .ended (some f) (m'.inside l')
  /-- A run that ends has come out on the way, or met the fault. -/
  back : ∀ {m n f m'}, steps s p n (.going i (m.inside l)) = .ended f m' →
    (∃ m₁ a, R m ⟨none, m₁⟩ ∧ a ≤ n ∧ steps s p a (.going j (m₁.inside k)) = .ended f m') ∨
    (∃ g m₁, R m ⟨some g, m₁⟩ ∧ f = some g ∧ m'.inside [] = m₁.inside [])

theorem Realises.then {R₁ R₂ : Machine → Ending → Prop} {i j k : Nat} {l₁ l₂ l₃ : List Nat}
    (h₁ : Realises s p R₁ i l₁ j l₂) (h₂ : Realises s p R₂ j l₂ k l₃) :
    Realises s p (Then R₁ R₂) i l₁ k l₃ where
  complete h := by
    cases h with
    | both hf hn =>
      obtain ⟨a, ha⟩ := h₁.complete hf
      obtain ⟨b, hb⟩ := h₂.complete hn
      exact ⟨a + b, by rw [steps_add, ha, hb]⟩
  fault h := by
    cases h with
    | both hf hn =>
      obtain ⟨a, ha⟩ := h₁.complete hf
      obtain ⟨b, l', hb⟩ := h₂.fault hn
      exact ⟨a + b, l', by rw [steps_add, ha, hb]⟩
    | fault hf => exact h₁.fault hf
  back h := by
    rcases h₁.back h with ⟨m₁, a, hf, ha, hs⟩ | ⟨g, m₁, hf, rfl, hm⟩
    · rcases h₂.back hs with ⟨m₂, b, hn, hb, hs'⟩ | ⟨g, m₂, hn, hg⟩
      · exact .inl ⟨m₂, b, .both hf hn, Nat.le_trans hb ha, hs'⟩
      · exact .inr ⟨g, m₂, .both hf hn, hg⟩
    · exact .inr ⟨g, m₁, .fault hf, rfl, hm⟩

/-- A step that goes on, as a step of a run that ends. -/
theorem Run.steps_of_step {r : Run} {f : Option Fault} (hr : step s p (.going i m) = r)
    (h : steps s p n (.going i m) = .ended f m') : ∃ a, n = a + 1 ∧ steps s p a r = .ended f m' := by
  cases n with
  | zero => cases h
  | succ a =>
    rw [steps_succ, hr] at h
    exact ⟨a, rfl, h⟩

theorem Realises.attempt {c : Plain} (hs : s.debug = false) (hc : p[i]? = some c.1) :
    Realises s p (fun m e => e = m.attempt s c) i l (i + 1) l := by
  have hok : ∀ {m m' : Machine}, m.obey s c = .ok m' →
      step s p (.going i (m.inside l)) = .going (i + 1) (m'.inside l) := by
    intro m m' ho
    rw [step_plain hc, Machine.obey_inside, ho]
    exact afterStep_of_debug_eq_false hs
  have herror : ∀ {m : Machine} {f : Fault}, m.obey s c = .error f →
      step s p (.going i (m.inside l)) = .ended (some f) (m.inside l) := by
    intro m f ho
    rw [step_plain hc, Machine.obey_inside, ho]
    rfl
  refine ⟨?_, ?_, ?_⟩
  · intro m m' h
    exact ⟨1, hok (Machine.eq_attempt_complete_iff.1 h)⟩
  · intro m m' f h
    obtain ⟨ho, rfl⟩ := Machine.eq_attempt_fault_iff.1 h
    exact ⟨1, l, herror ho⟩
  · intro m n f m' h
    cases ho : m.obey s c with
    | error g =>
      obtain ⟨a, rfl, ha⟩ := steps_of_step (herror ho) h
      rw [steps_ended] at ha
      cases ha
      exact .inr ⟨g, m, Machine.eq_attempt_fault_iff.2 ⟨ho, rfl⟩, rfl, rfl⟩
    | ok m₁ =>
      obtain ⟨a, rfl, ha⟩ := steps_of_step (hok ho) h
      exact .inl ⟨m₁, a, Machine.eq_attempt_complete_iff.2 ho, Nat.le_succ a, ha⟩

/-- The rounds of the loop entered at `i` that closes at `j`. -/
theorem Realises.rounds {body : Machine → Ending → Prop} (hs : s.debug = false) (hj : p[j]? = some ']')
    (h : Realises s p body (i + 1) (i :: l) j (i :: l)) :
    Realises s p (Rounds body) (i + 1) (i :: l) (j + 1) l := by
  have hlast : ∀ {m : Machine}, m.tape.cell = 0 →
      step s p (.going j (m.inside (i :: l))) = .going (j + 1) (m.countStep.inside l) := by
    intro m hz
    exact (Dispatch.leave (m := m.inside (i :: l)) hz).step_eq_going hs hj
  have hagain : ∀ {m : Machine}, m.tape.cell ≠ 0 →
      step s p (.going j (m.inside (i :: l))) = .going (i + 1) (m.countStep.inside (i :: l)) := by
    intro m hz
    exact (Dispatch.back (m := m.inside (i :: l)) hz rfl).step_eq_going hs hj
  refine ⟨?_, ?_, ?_⟩
  · intro m m' hr
    generalize he : (⟨none, m'⟩ : Ending) = e at hr
    induction hr with
    | last hb hz =>
      cases he
      obtain ⟨n, hn⟩ := h.complete hb
      exact ⟨n + 1, by rw [steps_add, hn, ← hlast hz]; rfl⟩
    | again hb hz _ ih =>
      obtain ⟨a, ha⟩ := h.complete hb
      obtain ⟨b, hb⟩ := ih he
      exact ⟨a + (b + 1), by rw [steps_add, ha, steps_succ, hagain hz, hb]⟩
    | fault hb => cases he
  · intro m m' f hr
    generalize he : (⟨some f, m'⟩ : Ending) = e at hr
    induction hr with
    | last hb hz => cases he
    | again hb hz _ ih =>
      obtain ⟨a, ha⟩ := h.complete hb
      obtain ⟨b, l', hb⟩ := ih he
      exact ⟨a + (b + 1), l', by rw [steps_add, ha, steps_succ, hagain hz, hb]⟩
    | fault hb => cases he; exact h.fault hb
  · -- every round takes a step, so a run of so many steps has fewer left after one
    intro m n f m' hn
    induction n using Nat.strongRecOn generalizing m with
    | ind n ih =>
      rcases h.back hn with ⟨m₁, a, hb, ha, hs'⟩ | ⟨g, m₁, hb, hg⟩
      · by_cases hz : m₁.tape.cell = 0
        · obtain ⟨b, rfl, hs''⟩ := steps_of_step (hlast hz) hs'
          exact .inl ⟨m₁.countStep, b, .last hb hz, by omega, hs''⟩
        · obtain ⟨b, rfl, hs''⟩ := steps_of_step (hagain hz) hs'
          rcases ih b (by omega) hs'' with ⟨m₂, d, hr, hd, he⟩ | ⟨g, m₂, hr, hg⟩
          · exact .inl ⟨m₂, d, .again hb hz hr, by omega, he⟩
          · exact .inr ⟨g, m₂, .again hb hz hr, hg⟩
      · exact .inr ⟨g, m₁, .fault hb, hg⟩

theorem Realises.loop {body : Machine → Ending → Prop} (hs : s.debug = false) (hp : p.Partners i j)
    (h : Realises s p body (i + 1) (i :: l) j (i :: l)) : Realises s p (Loop body) i l (j + 1) l := by
  have hr := h.rounds hs hp.leave
  have hskip : ∀ {m : Machine}, m.tape.cell = 0 →
      step s p (.going i (m.inside l)) = .going (j + 1) (m.countStep.inside l) := by
    intro m hz
    exact (Dispatch.skip (m := m.inside l) hz hp).step_eq_going hs hp.enter
  have henter : ∀ {m : Machine}, m.tape.cell ≠ 0 →
      step s p (.going i (m.inside l)) = .going (i + 1) (m.countStep.inside (i :: l)) := by
    intro m hz
    exact (Dispatch.enter (m := m.inside l) hz).step_eq_going hs hp.enter
  refine ⟨?_, ?_, ?_⟩
  · intro m m' hl
    cases hl with
    | skip hz => exact ⟨1, hskip hz⟩
    | enter hz hl =>
      obtain ⟨n, hn⟩ := hr.complete hl
      exact ⟨n + 1, by rw [steps_succ, henter hz, hn]⟩
  · intro m m' f hl
    cases hl with
    | enter hz hl =>
      obtain ⟨n, l', hn⟩ := hr.fault hl
      exact ⟨n + 1, l', by rw [steps_succ, henter hz, hn]⟩
  · intro m n f m' hn
    by_cases hz : m.tape.cell = 0
    · obtain ⟨a, rfl, ha⟩ := steps_of_step (hskip hz) hn
      exact .inl ⟨m.countStep, a, .skip hz, Nat.le_succ a, ha⟩
    · obtain ⟨a, rfl, ha⟩ := steps_of_step (henter hz) hn
      rcases hr.back ha with ⟨m₁, b, hr', hb, he⟩ | ⟨g, m₁, hr', hg⟩
      · exact .inl ⟨m₁, b, .enter hz hr', Nat.le_succ_of_le hb, he⟩
      · exact .inr ⟨g, m₁, .enter hz hr', hg⟩

/-- A block that stands in a program is realised there, inside any loops. -/
theorem Block.realises {b : Block} (hs : s.debug = false) (h : p.At i b.text) :
    Realises s p (b.Evaluates s) i l (i + b.text.length) l := by
  induction b generalizing i l with
  | done =>
    refine ⟨?_, ?_, ?_⟩
    · intro m m' he
      cases he
      exact ⟨0, rfl⟩
    · intro m m' f he
      cases he
    · intro m n f m' hn
      exact .inl ⟨m, n, rfl, Nat.le_refl n, hn⟩
  | plain c rest ih =>
    have hrest := (Realises.attempt (l := l) hs h.1).then (ih h.2)
    rwa [Nat.add_assoc, Nat.add_comm 1] at hrest
  | loop body rest ihb ihr =>
    have hbody := ihb (l := i :: l) h.2.left
    have hat := h.2.right
    have hp : p.Partners i (i + 1 + body.text.length) :=
      ⟨body.text, balanced_iff.2 ⟨body, rfl⟩, ⟨h.1, h.2.left.snoc hat.1⟩, rfl⟩
    have hloop := (Realises.loop hs hp hbody).then (ihr (l := l) hat.2)
    have hlen : i + 1 + body.text.length + 1 + rest.text.length = i + (loop body rest).text.length := by
      simp only [text, List.length_cons, List.length_append]
      omega
    rwa [hlen] at hloop

/-! ## Runs of balanced programs -/

theorem Machine.inside_of_loops_eq (h : m.loops = l) : m.inside l = m := by
  cases h
  rfl

/-- After its block a program is at its end. -/
theorem Block.past {b : Block} (hb : b.text = p.toList) : p[0 + b.text.length]? = none := by
  rw [hb, Nat.zero_add]
  exact Array.getElem?_eq_none (Nat.le_refl _)

/-- A run that ends, seen from its block. -/
theorem Block.evaluates_of_run {b : Block} {f : Option Fault} (hs : s.debug = false) (hb : b.text = p.toList)
    (h : m.run s p = some ⟨f, m'⟩) : b.Evaluates s (m.inside []) ⟨f, m'.inside []⟩ ∧ (f = none → m'.loops = []) := by
  obtain ⟨n, hn⟩ := Machine.exists_steps_of_run h
  have hr := realises (l := []) hs (hb ▸ at_toList (p := p))
  rcases hr.back (m := m.inside []) hn with ⟨m₁, a, he, -, ha⟩ | ⟨g, m₁, he, hf, hm⟩
  · obtain ⟨c, rfl, hc⟩ := steps_of_step (step_past (past hb)) ha
    rw [steps_ended] at hc
    cases hc
    have hl : m₁.loops = [] := tame.loops he
    rw [← Machine.inside_of_loops_eq hl] at he
    exact ⟨he, fun _ => rfl⟩
  · cases hf
    have hl : m₁.loops = [] := tame.loops he
    rw [show m'.inside [] = m₁ from hm.trans (Machine.inside_of_loops_eq hl)]
    exact ⟨he, nofun⟩

/-- An evaluation, seen from the run. -/
theorem Block.run_of_evaluates {b : Block} {f : Option Fault} (hs : s.debug = false) (hb : b.text = p.toList)
    (h : b.Evaluates s (m.inside []) ⟨f, m'⟩) : ∃ l, m.run s p = some ⟨f, m'.inside l⟩ ∧ (f = none → l = []) := by
  have hr := realises (l := []) hs (hb ▸ at_toList (p := p))
  cases f with
  | none =>
    obtain ⟨n, hn⟩ := hr.complete h
    refine ⟨[], Machine.run_eq_some_iff.2 ⟨n + 1, ?_⟩, fun _ => rfl⟩
    rw [steps_add]
    exact (congrArg _ hn).trans (step_past (past hb))
  | some f =>
    obtain ⟨n, l, hn⟩ := hr.fault h
    exact ⟨l, Machine.run_eq_some_iff.2 ⟨n, hn⟩, nofun⟩

/-- A balanced program is the text of a block, and its runs are the
evaluations of that block: they complete together, with no loop left, and
leave the tape together, with the same machine but for the stack. No
bracket of such a program is ever an error. -/
theorem run_iff_evaluates (hs : s.debug = false) (hp : Balanced p.toList) :
    (∃ b : Block, b.text = p.toList) ∧
    ∀ b : Block, b.text = p.toList → ∀ m : Machine,
      (∀ m', m.run s p = some ⟨none, m'⟩ ↔ m'.loops = [] ∧ b.Evaluates s (m.inside []) ⟨none, m'⟩) ∧
      (∀ (place : Int) (m' : Machine), (∃ l, m.run s p = some ⟨some (.overflow place), m'.inside l⟩) ↔
        b.Evaluates s (m.inside []) ⟨some (.overflow place), m'.inside []⟩) ∧
      ∀ f m', m.run s p = some ⟨some f, m'⟩ → ∃ place, f = .overflow place := by
  refine ⟨balanced_iff.1 hp, fun b hb m => ⟨fun m' => ?_, fun place m' => ?_, fun f m' h => ?_⟩⟩
  · constructor
    · intro h
      obtain ⟨he, hl⟩ := Block.evaluates_of_run hs hb h
      rw [Machine.inside_of_loops_eq (hl rfl)] at he
      exact ⟨hl rfl, he⟩
    · intro h
      obtain ⟨hl, he⟩ := h
      obtain ⟨l, h, hn⟩ := Block.run_of_evaluates hs hb he
      rwa [Machine.inside_of_loops_eq (hl.trans (hn rfl).symm)] at h
  · constructor
    · intro h
      obtain ⟨l, h⟩ := h
      exact (Block.evaluates_of_run hs hb h).1
    · intro he
      obtain ⟨l, h, -⟩ := Block.run_of_evaluates hs hb he
      exact ⟨l, h⟩
  · exact Block.tame.fault (Block.evaluates_of_run hs hb h).1

/-- The block of `++[>+[-]<-]` goes round twice, in 19 steps. -/
theorem nested_loops_evaluate :
    ∃ b : Block, b.text = "++[>+[-]<-]".toList ∧
      ∃ m', b.Evaluates {} (.start (.blank 2 (by decide)) []) ⟨none, m'⟩ ∧ m'.tape.cells = #[0, 0] ∧
        m'.tally.steps = 19 := by
  have hp : Balanced (#['+', '+', '[', '>', '+', '[', '-', ']', '<', '-', ']'] : Program).toList := by decide
  obtain ⟨⟨b, hb⟩, h⟩ := run_iff_evaluates (s := {}) rfl hp
  exact ⟨b, hb, _, (((h b hb (.start (.blank 2 (by decide)) [])).1 _).1 rfl).2, rfl, rfl⟩

end TapeMachine
