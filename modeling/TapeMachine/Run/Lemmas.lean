/-
Steps and strides: a stride is as many steps as it says, and what strides
reach is what steps reach.
-/
import Mathlib.Algebra.Group.Nat.Defs
import TapeMachine.Run

namespace TapeMachine.Run

variable {s : Setup} {p : Program}

@[simp] theorem step_ended {f : Option Fault} {m : Machine} : step s p (.ended f m) = .ended f m := rfl

@[simp] theorem steps_zero {r : Run} : steps s p 0 r = r := rfl

theorem steps_succ {n : Nat} {r : Run} : steps s p (n + 1) r = steps s p n (r.step s p) := rfl

@[simp] theorem steps_ended {f : Option Fault} {m : Machine} {n : Nat} :
    steps s p n (.ended f m) = .ended f m := by
  induction n with
  | zero => rfl
  | succ n ih => rw [steps_succ, step_ended, ih]

theorem steps_add {a b : Nat} {r : Run} : steps s p (a + b) r = steps s p b (steps s p a r) := by
  induction a generalizing r with
  | zero => rw [Nat.zero_add, steps_zero]
  | succ a ih => rw [Nat.succ_add, steps_succ, ih, steps_succ]

/-- More steps keep an end. -/
theorem steps_ended_mono {a b : Nat} {r : Run} {f : Option Fault} {m : Machine} (hab : a ≤ b)
    (h : steps s p a r = .ended f m) : steps s p b r = .ended f m := by
  obtain ⟨c, rfl⟩ := Nat.exists_eq_add_of_le hab
  rw [steps_add, h, steps_ended]

/-- An end comes with a step. -/
theorem exists_last_step {n i : Nat} {m m' : Machine} {f : Option Fault}
    (h : steps s p n (.going i m) = .ended f m') :
    ∃ k j m₁, steps s p k (.going i m) = .going j m₁ ∧ step s p (.going j m₁) = .ended f m' := by
  induction n generalizing i m with
  | zero => cases h
  | succ n ih =>
    rw [steps_succ] at h
    cases hr : step s p (.going i m) with
    | ended g m₁ =>
      rw [hr, steps_ended] at h
      exact ⟨0, i, m, rfl, hr.trans h⟩
    | going j m₁ =>
      rw [hr] at h
      obtain ⟨k, j', m₂, hk, he⟩ := ih h
      exact ⟨k + 1, j', m₂, by rw [steps_succ, hr, hk], he⟩

theorem stride_eq_steps {k : Nat} {r : Run} : stride s p k r = steps s p (2 ^ k) r := by
  induction k generalizing r with
  | zero => rfl
  | succ k ih =>
    rw [Nat.pow_succ, Nat.mul_two, steps_add, stride, ih]
    split
    · next h => rw [ih, h]
    · next h => rw [h, steps_ended]

/-- Strides from `2 ^ k` on, `left` of them, take `2 ^ (k + left) - 2 ^ k`
steps. -/
theorem finish_eq_some_iff {k left : Nat} {r : Run} {e : Ending} :
    finish s p r k left = some e ↔
      ∃ n, n + 2 ^ k ≤ 2 ^ (k + left) ∧ steps s p n r = .ended e.fault e.machine ∧ 0 < left := by
  induction left generalizing k r with
  | zero => simp [finish]
  | succ left ih =>
    have hpos : 0 < 2 ^ k := Nat.two_pow_pos k
    have hk : 2 ^ (k + 1) = 2 ^ k + 2 ^ k := by rw [Nat.pow_succ, Nat.mul_two]
    have hle : 2 ^ (k + 1) ≤ 2 ^ (k + 1 + left) := Nat.pow_le_pow_right (by decide) (by omega)
    rw [finish, show k + (left + 1) = k + 1 + left by omega, stride_eq_steps]
    split
    · next f m h =>
      constructor
      · intro he
        cases he
        exact ⟨2 ^ k, by omega, h, by omega⟩
      · intro he
        obtain ⟨n, -, hn, -⟩ := he
        have h₁ := steps_ended_mono (Nat.le_max_left n (2 ^ k)) hn
        have h₂ := steps_ended_mono (Nat.le_max_right n (2 ^ k)) h
        rw [h₁] at h₂
        cases h₂
        rfl
    · next i m h =>
      rw [ih]
      constructor
      · intro he
        obtain ⟨n, hn, hs, -⟩ := he
        exact ⟨2 ^ k + n, by omega, by rw [steps_add, h, hs], by omega⟩
      · intro he
        obtain ⟨n, hn, hs, -⟩ := he
        have hlt : 2 ^ k < n := by
          apply Nat.lt_of_not_le
          intro hle
          rw [steps_ended_mono hle hs] at h
          cases h
        obtain ⟨c, rfl⟩ := Nat.exists_eq_add_of_le (Nat.le_of_lt hlt)
        rw [steps_add, h] at hs
        refine ⟨c, by omega, hs, ?_⟩
        rcases left with - | left
        · simp only [Nat.add_zero] at hn
          omega
        · exact Nat.succ_pos _

end TapeMachine.Run
