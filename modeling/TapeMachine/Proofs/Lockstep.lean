/-
Two runs of one program side by side. A relation of machines that brackets
cannot tell apart is kept by plain runs as long as every other character
keeps it (`Lockstep.steps`), so what is left to show for two runs is what
`+`, `,` and the like do to the two machines. Where that holds only up to
some place, it is asked for only as far as the first run goes.
-/
import TapeMachine.Proofs.Trace

namespace TapeMachine

open Machine Run Program

variable {s : Setup} {p : Program} {n : Nat} {r r' : Run}

namespace Run

/-- Runs at the same cursor, or ended in the same way, with machines that are
related. -/
inductive Related (R : Machine → Machine → Prop) : Run → Run → Prop
  | going {i : Nat} {m m' : Machine} : R m m' → Related R (.going i m) (.going i m')
  | ended {f : Option Fault} {m m' : Machine} : R m m' → Related R (.ended f m) (.ended f m')

theorem Related.machine {R : Machine → Machine → Prop} (h : Related R r r') : R r.machine r'.machine := by
  cases h with
  | going h => exact h
  | ended h => exact h

end Run

/-- A relation that two runs of one program keep, as long as the first one has
`ok` places only. -/
structure Lockstep (s : Setup) (ok : Run → Prop) (R : Machine → Machine → Prop) : Prop where
  cell : ∀ {m m'}, R m m' → m.tape.cell = m'.tape.cell
  loops : ∀ {m m'}, R m m' → m.loops = m'.loops
  bracket : ∀ {m m' l}, R m m' → R (m.ledInto l) (m'.ledInto l)
  plain : ∀ {i m m' m₁ cmd}, R m m' → Obeys s m cmd (.ok m₁) → ok (.going i m₁) →
    ∃ m₁', Obeys s m' cmd (.ok m₁') ∧ R m₁ m₁'
  fault : ∀ {m m' f cmd}, R m m' → Obeys s m cmd (.error f) → ok (.ended (some f) m) → Obeys s m' cmd (.error f)

namespace Lockstep

variable {ok : Run → Prop} {R : Machine → Machine → Prop}

theorem step (h : Lockstep s ok R) (hs : s.debug = false) (hr : Related R r r') (hok : ok (r.step s p)) :
    Related R (r.step s p) (r'.step s p) := by
  cases hr with
  | ended hr => exact .ended hr
  | @going i m m' hr =>
    cases hc : p[i]? with
    | none =>
      rw [step_past hc, step_past hc]
      exact .ended hr
    | some c =>
      rcases or_assoc.2 (char_cases c) with hb | ⟨c, rfl⟩
      · rcases step_bracket (m := m) hs hc hb with ⟨j, l, he⟩ | ⟨f, he⟩
        · rw [he m rfl rfl, he m' (h.cell hr) (h.loops hr)]
          exact .going (h.bracket hr)
        · rw [he m rfl rfl, he m' (h.cell hr) (h.loops hr)]
          exact .ended hr
      · have hobeys := m.obeys (s := s) (c := c)
        cases ho : m.obey s c with
        | ok m₁ =>
          rw [ho] at hobeys
          rw [(Dispatch.plain ho).step_eq_going hs hc] at hok ⊢
          obtain ⟨m₁', ho', hr'⟩ := h.plain hr hobeys hok
          rw [(Dispatch.plain ho'.obey_eq).step_eq_going hs hc]
          exact .going hr'
        | error f =>
          rw [ho] at hobeys
          rw [(Dispatch.fault ho).step_eq hc] at hok ⊢
          rw [(Dispatch.fault (h.fault hr hobeys hok).obey_eq).step_eq hc]
          exact .ended hr

theorem steps (h : Lockstep s ok R) (hs : s.debug = false) (hr : Related R r r')
    (hok : ∀ k ≤ n, ok (r.steps s p k)) : Related R (r.steps s p n) (r'.steps s p n) := by
  induction n generalizing r r' with
  | zero => exact hr
  | succ n ih =>
    rw [steps_succ, steps_succ]
    refine ih (h.step hs hr (hok 1 (by omega))) fun k hk => ?_
    rw [← steps_succ]
    exact hok (k + 1) (by omega)

/-- Both do the same characters. -/
theorem trace_eq (h : Lockstep s ok R) (hs : s.debug = false) (hr : Related R r r')
    (hok : ∀ k ≤ n, ok (r.steps s p k)) : trace s p n r = trace s p n r' := by
  induction n generalizing r r' with
  | zero => rw [trace_zero, trace_zero]
  | succ n ih =>
    have hstep := h.step hs hr (hok 1 (by omega))
    cases hr with
    | ended => rw [trace_ended, trace_ended]
    | going =>
      rw [trace_going, trace_going]
      refine congrArg _ (ih hstep fun k hk => ?_)
      rw [← steps_succ]
      exact hok (k + 1) (by omega)

/-- A run that ends takes the other one with it. -/
theorem ends {t : List Char} {e : Ending} {m m' : Machine} (h : Lockstep s ok R) (hs : s.debug = false)
    (hr : R (m.inside []) (m'.inside [])) (he : m.Ends s p t e)
    (hok : ∀ k, ok (Run.steps s p k (.going 0 (m.inside [])))) :
    ∃ m₁, m'.Ends s p t ⟨e.fault, m₁⟩ ∧ R e.machine m₁ := by
  obtain ⟨-, n, hn, rfl⟩ := he
  have hend := h.steps (p := p) (n := n) hs (.going hr) fun k _ => hok k
  have htrace := h.trace_eq (p := p) (n := n) hs (.going hr) fun k _ => hok k
  rw [hn] at hend
  generalize hy : Run.steps s p n (.going 0 (m'.inside [])) = r at hend
  cases hend with
  | @ended _ _ m₁ hm => exact ⟨m₁, htrace ▸ ends_of_steps hy, hm⟩

end Lockstep
end TapeMachine
