/-
What keeps a run going. Every character takes the cursor on towards the end of
the program, but for a `]` that jumps back; so a run pays for each character
out of what is left of the program ahead of it, and only jumps back give it
more to spend, each no more than the length of the program
(`Run.length_trace_add_remaining_le`). So the jumps back bound what a run does,
and where nothing can jump back it ends (`back_jumps_bound_runs`).
-/
import TapeMachine.Proofs.Trace

namespace TapeMachine

open Machine Run Program

variable {s : Setup} {p : Program} {i j n : Nat} {m m' : Machine} {r : Run} {c : Char}

namespace Run

/-- The next step of the run is a `]` that jumps back. -/
def JumpsBack (p : Program) : Run → Prop
  | .going i m => p[i]? = some ']' ∧ m.tape.cell ≠ 0 ∧ m.loops ≠ []
  | .ended _ _ => False

instance (p : Program) (r : Run) : Decidable (r.JumpsBack p) :=
  match r with
  | .going i m => inferInstanceAs (Decidable (p[i]? = some ']' ∧ m.tape.cell ≠ 0 ∧ m.loops ≠ []))
  | .ended _ _ => inferInstanceAs (Decidable False)

/-- How many of `n` steps jump back. -/
def backJumps (s : Setup) (p : Program) : Nat → Run → Nat
  | 0, _ => 0
  | n + 1, r => (if r.JumpsBack p then 1 else 0) + backJumps s p n (step s p r)

/-- How much of the program is ahead of the cursor. -/
def remaining (p : Program) : Run → Nat
  | .going i _ => p.size - i
  | .ended _ _ => 0

end Run

/-- A character that does not fail leads the cursor on, unless it jumps back, and then
not to the very beginning. -/
theorem Dispatch.lt_or_jumpsBack (hc : p[i]? = some c) (hd : Dispatch s p i m c (.ok (j, m'))) :
    i < j ∨ (Run.going i m).JumpsBack p ∧ 0 < j := by
  cases hd with
  | plain | enter | leave => exact .inl (Nat.lt_succ_self i)
  | skip hz hp => exact .inl (Nat.lt_succ_of_lt hp.lt)
  | back hz hl => exact .inr ⟨⟨hc, hz, by simp [hl]⟩, Nat.succ_pos _⟩

namespace Run

theorem remaining_afterStep_le : (afterStep s p c j m).remaining p ≤ p.size - j := by
  obtain ⟨m', -, he | ⟨-, he⟩⟩ := afterStep_cases (s := s) (p := p) (c := c) (j := j) (m := m)
  · rw [he]
    exact Nat.le_refl _
  · rw [he]
    exact Nat.zero_le _

/-- A step is paid for by what is left of the program, or jumps back. -/
theorem length_trace_step_le : (trace s p 1 r).length + (r.step s p).remaining p ≤
    (if r.JumpsBack p then 1 else 0) * p.size + r.remaining p := by
  cases r with
  | ended f m => exact Nat.zero_le _
  | going i m =>
    rw [trace_going, trace_zero, List.append_nil]
    rcases step_cases (s := s) (p := p) (i := i) (m := m) with ⟨hc, he⟩ | ⟨c, e, hc, hd, he⟩
    · rw [hc, he]
      exact Nat.zero_le _
    · have hi := lt_size hc
      rw [hc, he, Option.toList_some, List.length_singleton]
      cases e with
      | error f =>
        simp only [resume, remaining]
        omega
      | ok e =>
        obtain ⟨j, m'⟩ := e
        have hle := remaining_afterStep_le (s := s) (p := p) (c := c) (j := j) (m := m')
        simp only [resume, remaining] at hle ⊢
        rcases hd.lt_or_jumpsBack hc with hlt | ⟨hb, hpos⟩
        · omega
        · rw [if_pos hb, Nat.one_mul]
          omega

/-- Steps are paid for by what was left of the program, and once more by the whole
of it for each jump back. -/
theorem length_trace_add_remaining_le : (trace s p n r).length + (steps s p n r).remaining p ≤
    backJumps s p n r * p.size + r.remaining p := by
  induction n generalizing r with
  | zero =>
    rw [trace_zero, backJumps, Nat.zero_mul]
    exact Nat.le_refl _
  | succ n ih =>
    have hstep := length_trace_step_le (s := s) (p := p) (r := r)
    have hrest := ih (r := step s p r)
    rw [Nat.add_comm n, trace_add, List.length_append, Nat.add_comm 1, steps_succ, backJumps, Nat.add_mul]
    simp only [steps_succ, steps_zero]
    omega

theorem backJumps_eq_zero (h : ∀ a, ¬ (steps s p a r).JumpsBack p) : backJumps s p n r = 0 := by
  induction n generalizing r with
  | zero => rfl
  | succ n ih =>
    have hnow : ¬ r.JumpsBack p := h 0
    rw [backJumps, if_neg hnow, ih fun a => h (a + 1)]

/-- A jump back takes a `[` and a `]`. -/
theorem mem_of_jumpsBack (h : (steps s p n (.going 0 (m.inside []))).JumpsBack p) : '[' ∈ p ∧ ']' ∈ p := by
  cases hn : steps s p n (.going 0 (m.inside [])) with
  | ended f m' =>
    rw [hn] at h
    cases h
  | going i m' =>
    rw [hn] at h
    obtain ⟨hc, -, hl⟩ := h
    refine ⟨?_, Array.mem_of_getElem? hc⟩
    -- the loop to go back to was entered at a `[`
    obtain ⟨k, l, hk⟩ := List.exists_cons_of_ne_nil hl
    have ho : p.openLoops i = k :: l := (reaches_of_steps hn).loops.symm.trans hk
    exact Array.mem_of_getElem? (enter_of_mem_openLoops (ho ▸ List.mem_cons_self)).2

end Run

/-- A run that does not do more than so many characters ends. -/
theorem Machine.exists_ends_of_length_trace_le {b : Nat}
    (h : ∀ n, (Run.trace s p n (.going 0 (m.inside []))).length ≤ b) :
    ∃ t e, m.Ends s p t e ∧ t.length ≤ b := by
  cases hrun : m.run s p with
  | none =>
    obtain ⟨i, m', hgo⟩ := run_eq_none_iff_going.1 hrun (b + 1)
    have hle := h (b + 1)
    rw [length_trace_of_going hgo] at hle
    exact absurd hle (Nat.not_succ_le_self b)
  | some e =>
    obtain ⟨t, ht⟩ := exists_ends_of_run hrun
    obtain ⟨n, -, hn⟩ := ht.trace
    exact ⟨t, e, ht, hn ▸ h n⟩

/-- A run that jumps back `k` times at most does no more characters than `k + 1` times
those of its program; and if it jumps back no more often however far it goes, it
ends. It is complete only with its cursor at the very end of the program. Without a `[`
or without a `]` nothing jumps back, so every run ends, after no more characters than
there are. -/
theorem back_jumps_bound_runs (s : Setup) (p : Program) (m : Machine) :
    (∀ k n, backJumps s p n (.going 0 (m.inside [])) ≤ k →
      (trace s p n (.going 0 (m.inside []))).length ≤ (k + 1) * p.size) ∧
    (∀ k, (∀ n, backJumps s p n (.going 0 (m.inside [])) ≤ k) →
      ∃ t e, m.Ends s p t e ∧ t.length ≤ (k + 1) * p.size) ∧
    (∀ n i m₁ m₂, steps s p n (.going 0 (m.inside [])) = .going i m₁ →
      step s p (.going i m₁) = .ended none m₂ → i = p.size) ∧
    ('[' ∉ p ∨ ']' ∉ p → ∃ t e, m.Ends s p t e ∧ t.length ≤ p.size) := by
  have hbound (k n : Nat) (hk : backJumps s p n (.going 0 (m.inside [])) ≤ k) :
      (trace s p n (.going 0 (m.inside []))).length ≤ (k + 1) * p.size := by
    have hle := length_trace_add_remaining_le (s := s) (p := p) (n := n) (r := .going 0 (m.inside []))
    have hmul := Nat.mul_le_mul_right p.size hk
    rw [Nat.succ_mul]
    simp only [remaining] at hle
    omega
  have hends (k : Nat) (hk : ∀ n, backJumps s p n (.going 0 (m.inside [])) ≤ k) :
      ∃ t e, m.Ends s p t e ∧ t.length ≤ (k + 1) * p.size :=
    exists_ends_of_length_trace_le fun n => hbound k n (hk n)
  refine ⟨hbound, hends, fun n i m₁ m₂ hgo hend => ?_, fun hno => ?_⟩
  · exact Nat.le_antisymm (reaches_of_steps hgo).le (Array.getElem?_eq_none_iff.1 (past_of_complete hend).1)
  · have hnone (n : Nat) : backJumps s p n (.going 0 (m.inside [])) ≤ 0 :=
      Nat.le_of_eq (backJumps_eq_zero fun a hb => (not_and_or.2 hno) (mem_of_jumpsBack hb))
    simpa using hends 0 hnone

/-- Of the ten characters that one jump back allows, `++[-]` does seven; and `+].`
cannot jump back. -/
theorem one_jump_back_ends :
    backJumps {} #['+', '+', '[', '-', ']'] 8 (.going 0 (start (.blank 1 (by decide)) [])) = 1 ∧
    (trace {} #['+', '+', '[', '-', ']'] 8 (.going 0 (start (.blank 1 (by decide)) []))).length = 7 ∧
    7 ≤ (1 + 1) * 5 ∧
    ∃ t e, (start (.blank 1 (by decide)) []).Ends {} #['+', ']', '.'] t e ∧ t.length ≤ 3 := by
  have hback : backJumps {} #['+', '+', '[', '-', ']'] 8 (.going 0 (start (.blank 1 (by decide)) [])) = 1 := by
    decide
  have hdone : (trace {} #['+', '+', '[', '-', ']'] 8 (.going 0 (start (.blank 1 (by decide)) []))).length = 7 := by
    decide
  refine ⟨hback, hdone, ?_, ?_⟩
  · rw [← hdone]
    exact (back_jumps_bound_runs {} #['+', '+', '[', '-', ']'] (start (.blank 1 (by decide)) [])).1 1 8
      (Nat.le_of_eq hback)
  · exact (back_jumps_bound_runs {} #['+', ']', '.'] (start (.blank 1 (by decide)) [])).2.2.2 (.inl (by simp))

end TapeMachine
