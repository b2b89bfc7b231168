/-
Runs without an end. A plain run that comes back to where it was, its cursor,
its tape and the length of its input the same, goes round for ever; the loops
need not be compared, for they follow from the cursor. So a run that ends does
each character from another place, and no more characters than there are places
(`revisit_never_ends`).
-/
import TapeMachine.Proofs.Trace

namespace TapeMachine

open Machine Run Program

variable {s : Setup} {p : Program} {a n : Nat} {m : Machine} {r : Run} {t : List Char} {e : Ending}

/-- As long as characters are done, the run stands inside its program. -/
theorem Run.going_of_lt_length_trace (h : a < (trace s p n r).length) :
    ∃ i m, i < p.size ∧ steps s p a r = .going i m := by
  induction n generalizing a r with
  | zero =>
    rw [trace_zero] at h
    exact absurd h (Nat.not_lt_zero a)
  | succ n ih =>
    cases r with
    | ended f m =>
      rw [trace_ended] at h
      exact absurd h (Nat.not_lt_zero a)
    | going i m =>
      rw [trace_going] at h
      cases hc : p[i]? with
      | none =>
        rw [step_past hc, trace_ended, hc] at h
        exact absurd h (Nat.not_lt_zero a)
      | some c =>
        rw [hc] at h
        cases a with
        | zero => exact ⟨i, m, lt_size hc, rfl⟩
        | succ a =>
          rw [Option.toList_some, List.singleton_append, List.length_cons] at h
          rw [steps_succ]
          exact ih (Nat.lt_of_succ_lt_succ h)

/-- A run that ends does no more characters than there are places. -/
theorem Machine.Ends.length_le_places (h : m.Ends s p t e) : t.length ≤ m.places s p := by
  obtain ⟨-, n, hn, rfl⟩ := h
  exact le_places hn fun _ => going_of_lt_length_trace

/-- Nobody breaks a plain run off, so only its cursor, its tape and its input make
its places. -/
theorem Machine.places_of_debug_eq_false (hs : s.debug = false) :
    m.places s p = p.size * m.tape.size * 256 ^ m.tape.size * (m.unread.length + 1) := by
  have hpatience : s.patience = 0 := by rw [Setup.patience, hs]; rfl
  rw [places, hpatience]
  simp only [Nat.zero_add, Nat.mul_one, Nat.mul_assoc]

/-- A plain run that stands twice at one cursor has the same loops both times;
and if its tape and the number of items left are the same as well, it never
ends. So a run that ends, complete or with a fault, has done no more characters
than there are cursors in the program, cells for the head, contents of the
tape and lengths of the input left, multiplied. -/
theorem revisit_never_ends (hs : s.debug = false) :
    (∀ a b i m₁ m₂, a ≠ b → steps s p a (.going 0 (m.inside [])) = .going i m₁ →
      steps s p b (.going 0 (m.inside [])) = .going i m₂ →
      m₁.loops = m₂.loops ∧
      (m₁.tape = m₂.tape → m₁.unread.length = m₂.unread.length →
        m.run s p = none ∧ ∀ n, ∃ j m', steps s p n (.going 0 (m.inside [])) = .going j m')) ∧
    ∀ t e, m.Ends s p t e →
      t.length ≤ p.size * m.tape.size * 256 ^ m.tape.size * (m.unread.length + 1) := by
  constructor
  · intro a b i m₁ m₂ hab h₁ h₂
    have hloops : m₁.loops = m₂.loops := (reaches_of_steps h₁).loops.trans (reaches_of_steps h₂).loops.symm
    refine ⟨hloops, fun htape hunread => ?_⟩
    have hplace : m₁.place s m.tape.size i = m₂.place s m.tape.size i := by
      have hpatience : s.patience = 0 := by rw [Setup.patience, hs]; rfl
      simp only [Machine.place, htape, hunread, hpatience, Nat.min_zero]
    have hendless (n : Nat) (f : Option Fault) (m' : Machine) :
        steps s p n (.going 0 (m.inside [])) ≠ .ended f m' := by
      intro hn
      rcases Nat.lt_or_gt_of_ne hab with hab | hab
      · exact place_ne_of_lt hab h₁ h₂ hn hplace
      · exact place_ne_of_lt hab h₂ h₁ hn hplace.symm
    refine ⟨run_eq_none_iff.2 hendless, fun n => ?_⟩
    cases hn : steps s p n (.going 0 (m.inside [])) with
    | going j m' => exact ⟨j, m', rfl⟩
    | ended f m' => exact absurd hn (hendless n f m')
  · intro t e h
    rw [← places_of_debug_eq_false hs]
    exact h.length_le_places

/-- The `]` of `+[]` goes back to itself. -/
theorem empty_loop_never_ends :
    (Machine.start (.blank 1 (by decide)) []).run {} #['+', '[', ']'] = none := by
  obtain ⟨-, h⟩ := (revisit_never_ends (s := {}) (p := #['+', '[', ']']) (m := .start (.blank 1 (by decide)) []) rfl).1
    2 3 2 _ _ (by decide) rfl rfl
  exact (h rfl rfl).1

end TapeMachine
