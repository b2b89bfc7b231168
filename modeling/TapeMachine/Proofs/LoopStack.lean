/-
The stack of entered loops says no more than the cursor does. Loops are
entered, skipped, left and gone back to, and leaving one that was never
entered is passed over; but wherever a run stands, its stack is
`openLoops` at its cursor (`Run.Within`), for any text. So a `]` goes back
to its partner, and the stack a complete run leaves is known beforehand.
-/
import TapeMachine.Proofs.Dispatch
import TapeMachine.Run.Lemmas

namespace TapeMachine

open Run Program

variable {s : Setup} {p : Program} {i j n : Nat} {m₀ m m' : Machine} {r : Run}

/-- The machine is one that a run which began with `m₀` can have at cursor `i`. -/
structure Machine.Reaches (m₀ : Machine) (p : Program) (i : Nat) (m : Machine) : Prop where
  le : i ≤ p.size
  loops : m.loops = p.openLoops i
  size : m.tape.size = m₀.tape.size
  unread : m.unread <:+ m₀.unread

theorem Machine.Reaches.refl : m.Reaches p 0 (m.inside []) :=
  ⟨Nat.zero_le _, rfl, rfl, List.suffix_refl _⟩

theorem Machine.Reaches.paused (h : m₀.Reaches p i m) (hp : m.Paused m') : m₀.Reaches p i m' :=
  ⟨h.le, hp.loops.trans h.loops, by rw [hp.tape, h.size], hp.unread.trans h.unread⟩

theorem Machine.Reaches.dispatch {c : Char} (h : m₀.Reaches p i m) (hc : p[i]? = some c)
    (hd : Dispatch s p i m c (.ok (j, m'))) : m₀.Reaches p j m' := by
  have hi := lt_size hc
  cases hd with
  | plain ho =>
    refine ⟨hi, ?_, by rw [size_of_obey ho, h.size], (unread_of_obey ho).trans h.unread⟩
    rw [loops_of_obey ho, h.loops, openLoops_plain hc]
  | enter =>
    refine ⟨hi, ?_, h.size, h.unread⟩
    rw [openLoops_enter hc, ← h.loops]
    rfl
  | skip hz hp =>
    refine ⟨lt_size hp.leave, ?_, h.size, h.unread⟩
    rw [hp.openLoops_succ, ← h.loops]
    rfl
  | leave =>
    refine ⟨hi, ?_, h.size, h.unread⟩
    rw [openLoops_leave hc, ← h.loops]
    rfl
  | back hz hl =>
    -- the loop on top of the stack is the partner, so its body begins as it did before
    have ho : p.openLoops i = _ := h.loops.symm.trans hl
    obtain ⟨hp, rfl⟩ := (openLoops_eq_cons_iff hc).1 ho
    refine ⟨Nat.le_trans hp.lt h.le, ?_, h.size, h.unread⟩
    rw [openLoops_enter hp.enter, ← hl]
    rfl

namespace Run

/-- A run that began with `m₀` can stand here. -/
def Within (p : Program) (m₀ : Machine) : Run → Prop
  | .going i m => m₀.Reaches p i m
  | .ended none m => m₀.Reaches p p.size m
  | .ended (some _) m => ∃ i, m₀.Reaches p i m

theorem Within.afterStep {c : Char} (h : m₀.Reaches p j m) : Within p m₀ (afterStep s p c j m) := by
  obtain ⟨m', hp, he | ⟨-, he⟩⟩ := afterStep_cases (s := s) (p := p) (c := c) (j := j) (m := m)
  · rw [he]
    exact h.paused hp
  · rw [he]
    exact ⟨j, h.paused hp⟩

theorem Within.step (h : Within p m₀ r) : Within p m₀ (r.step s p) := by
  cases r with
  | ended f m => exact h
  | going i m =>
    rcases step_cases (s := s) (p := p) (i := i) (m := m) with ⟨hc, he⟩ | ⟨c, e, hc, hd, he⟩
    · rw [he]
      obtain rfl : i = p.size := Nat.le_antisymm h.le (Array.getElem?_eq_none_iff.1 hc)
      exact h
    · rw [he]
      cases e with
      | error f => exact ⟨i, h⟩
      | ok e => exact Within.afterStep (h.dispatch hc hd)

theorem Within.steps (h : Within p m₀ r) : Within p m₀ (steps s p n r) := by
  induction n generalizing r with
  | zero => exact h
  | succ n ih => exact ih h.step

theorem reaches_of_steps (h : Run.steps s p n (.going 0 (m.inside [])) = .going i m') : m.Reaches p i m' := by
  have hw : Within p m (Run.steps s p n (.going 0 (m.inside []))) := Within.steps Machine.Reaches.refl
  rwa [h] at hw

end Run

/-- What a run finds, steps find. -/
theorem Machine.exists_steps_of_run {e : Ending} (h : m.run s p = some e) :
    ∃ n, steps s p n (.going 0 (m.inside [])) = .ended e.fault e.machine := by
  obtain ⟨n, -, hn, -⟩ := finish_eq_some_iff.1 h
  exact ⟨n, hn⟩

theorem Machine.within_of_run {e : Ending} (h : m.run s p = some e) : Within p m (.ended e.fault e.machine) := by
  obtain ⟨n, hn⟩ := exists_steps_of_run h
  rw [← hn]
  exact Within.steps Machine.Reaches.refl

/-- Wherever a run stands, its loops are those open at the cursor; a `]` on a
cell that is not 0 goes back to right after its partner, and is an error
exactly if it has none; and the loops a complete run leaves are those the
program never closes. -/
theorem loops_follow_cursor :
    (∀ n i m', steps s p n (.going 0 (m.inside [])) = .going i m' →
      m'.loops = p.openLoops i ∧
      (p[i]? = some ']' → m'.tape.cell ≠ 0 →
        (∀ k, p.Partners k i → step s p (.going i m') = afterStep s p ']' (k + 1) m'.countStep) ∧
        (step s p (.going i m') = .ended (some (.unopened i)) m' ↔ ¬ ∃ k, p.Partners k i))) ∧
    ∀ m', m.run s p = some ⟨none, m'⟩ → m'.loops = p.openLoops p.size := by
  constructor
  · intro n i m' h
    have hr := reaches_of_steps h
    refine ⟨hr.loops, fun hc hz => ?_⟩
    have hback : ∀ k, p.Partners k i → step s p (.going i m') = afterStep s p ']' (k + 1) m'.countStep := by
      intro k hp
      exact (Dispatch.back hz (hr.loops.trans hp.openLoops_eq)).step_eq hc
    refine ⟨hback, ?_, fun hn => ?_⟩
    · intro he hk
      obtain ⟨k, hp⟩ := hk
      rw [hback k hp] at he
      obtain ⟨m'', -, hg | ⟨-, hg⟩⟩ := afterStep_cases (s := s) (p := p) (c := ']') (j := k + 1) (m := m'.countStep)
      · rw [hg] at he; cases he
      · rw [hg] at he; cases he
    · exact (Dispatch.unopened hz (hr.loops.trans ((openLoops_eq_nil_iff hc).2 hn))).step_eq hc
  · intro m' h
    exact (Machine.within_of_run h).loops

/-- The last `]` of `[]+]` is reached with a 1 under the head and fails. -/
theorem stray_leave_has_no_partner : ¬ ∃ k, Program.Partners #['[', ']', '+', ']'] k 3 :=
  ((loops_follow_cursor (s := {}) (m := .start (.blank 1 (by decide)) []).1 2 3 _ rfl).2 rfl (by decide)).2.1 rfl

end TapeMachine
