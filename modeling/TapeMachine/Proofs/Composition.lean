/-
Runs one after the other. Two texts put together run like the first and then
the second, provided that every loop of the first closes: then a run of the
whole goes through the first text as if there were nothing after it, comes
out at its end with no loop entered, and goes on in the second as if there
were nothing before it, but for the positions (`run_append`).
-/
import TapeMachine.Proofs.Recurrence

namespace TapeMachine

open Run Program

variable {s : Setup} {p q : Program} {i n : Nat} {m m' : Machine} {r : Run}

/-- The fault as it is called in a text with `n` more characters before it. -/
def Fault.shift (n : Nat) : Fault → Fault
  | .overflow place => .overflow place
  | .unclosed position => .unclosed (n + position)
  | .unopened position => .unopened (n + position)
  | .interrupted => .interrupted

/-- The machine with all loops entered so much later in the text. -/
def Machine.shift (n : Nat) (m : Machine) : Machine := m.inside (m.loops.map (n + ·))

def Run.Ending.shift (n : Nat) (e : Ending) : Ending := ⟨e.fault.map (·.shift n), e.machine.shift n⟩

def Run.shift (n : Nat) : Run → Run
  | .going i m => .going (n + i) (m.shift n)
  | .ended f m => .ended (f.map (·.shift n)) (m.shift n)

/-! ## In the first text -/

/-- A character does the same with more text after it, unless it looks for
the end of a loop that the text does not have. -/
theorem Dispatch.append {c : Char} {e : Except Fault (Nat × Machine)} (hc : p[i]? = some c)
    (hp : ∀ k, p[k]? = some '[' → ∃ j, p.Partners k j) (hd : Dispatch s p i m c e) :
    Dispatch s (p ++ q) i m c e := by
  cases hd with
  | plain ho => exact .plain ho
  | fault ho => exact .fault ho
  | enter hz => exact .enter hz
  | skip hz hj => exact .skip hz hj.append
  | unclosed hz hn => exact absurd (hp i hc) hn
  | leave hz => exact .leave hz
  | back hz hl => exact .back hz hl
  | unopened hz hl => exact .unopened hz hl

namespace Run

theorem resume_of_debug_eq_false {c : Char} {e : Except Fault (Nat × Machine)} (hs : s.debug = false) :
    resume s p c m e = resume s q c m e := by
  cases e with
  | error f => rfl
  | ok e => exact (afterStep_of_debug_eq_false hs).trans (afterStep_of_debug_eq_false hs).symm

theorem step_append (hs : s.debug = false) (hp : ∀ k, p[k]? = some '[' → ∃ j, p.Partners k j) (hi : i < p.size) :
    step s (p ++ q) (.going i m) = step s p (.going i m) := by
  have hc : p[i]? = some p[i] := Array.getElem?_eq_getElem hi
  have hc' : (p ++ q)[i]? = some p[i] := by rw [Array.getElem?_append_left hi, hc]
  obtain ⟨e, hd⟩ := exists_dispatch (s := s) (p := p) (i := i) (m := m) (c := p[i])
  rw [hd.step_eq hc, (hd.append hc hp).step_eq hc', resume_of_debug_eq_false hs]

/-- Until a run of the first text is complete, the run of both is with it. -/
theorem steps_append {r' : Run} (hs : s.debug = false) (hp : ∀ k, p[k]? = some '[' → ∃ j, p.Partners k j)
    (h : steps s p n r = r') (hr : ∀ m, r' ≠ .ended none m) : steps s (p ++ q) n r = r' := by
  induction n generalizing r with
  | zero => exact h
  | succ n ih =>
    rw [steps_succ] at h ⊢
    cases r with
    | ended f m => exact ih h
    | going j m =>
      by_cases hj : j < p.size
      · rw [step_append hs hp hj]
        exact ih h
      · rw [step_past (Array.getElem?_eq_none (Nat.le_of_not_lt hj)), steps_ended] at h
        exact absurd h.symm (hr m)

/-- A complete run has come to the end of its program. -/
theorem exists_going_of_complete (h : steps s p n (.going i m) = .ended none m') :
    ∃ k j, p[j]? = none ∧ steps s p k (.going i m) = .going j m' := by
  obtain ⟨k, j, m₁, hk, he⟩ := exists_last_step h
  obtain ⟨hj, rfl⟩ := past_of_complete he
  exact ⟨k, j, hj, hk⟩

/-! ## In the second text -/

end Run

theorem Dispatch.shift_ok {c : Char} {j : Nat} (hd : Dispatch s q i m c (.ok (j, m'))) :
    Dispatch s (p ++ q) (p.size + i) (m.shift p.size) c (.ok (p.size + j, m'.shift p.size)) := by
  cases hd with
  | plain ho =>
    refine .plain ?_
    rw [Machine.shift, Machine.obey_inside, ho, ← Machine.loops_of_obey ho]
    rfl
  | enter hz => exact .enter hz
  | skip hz hj => exact .skip hz (partners_append_size_iff.2 ⟨_, rfl, hj⟩)
  | leave hz =>
    have htail : (m.shift p.size).loops.tail = m.loops.tail.map (p.size + ·) := List.map_tail.symm
    have h := Dispatch.leave (s := s) (p := p ++ q) (i := p.size + i) (m := m.shift p.size) hz
    rwa [htail] at h
  | back hz hl => exact .back hz (congrArg (List.map (p.size + ·)) hl)

theorem Dispatch.shift_error {c : Char} {f : Fault} (hd : Dispatch s q i m c (.error f)) :
    Dispatch s (p ++ q) (p.size + i) (m.shift p.size) c (.error (f.shift p.size)) := by
  cases hd with
  | fault ho =>
    obtain ⟨place, rfl⟩ := Machine.overflow_of_obey ho
    refine .fault ?_
    rw [Machine.shift, Machine.obey_inside, ho]
    rfl
  | unclosed hz hn =>
    refine .unclosed hz ?_
    intro hk
    obtain ⟨k, hk⟩ := hk
    obtain ⟨j, -, hj⟩ := partners_append_size_iff.1 hk
    exact hn ⟨j, hj⟩
  | unopened hz hl => exact .unopened hz (congrArg (List.map (p.size + ·)) hl)

namespace Run

theorem step_shift (hs : s.debug = false) : step s (p ++ q) (r.shift p.size) = (step s q r).shift p.size := by
  cases r with
  | ended f m => rfl
  | going i m =>
    have hat : (p ++ q)[p.size + i]? = q[i]? := by
      rw [Array.getElem?_append_right (Nat.le_add_right _ _), Nat.add_sub_cancel_left]
    rcases step_cases (s := s) (p := q) (i := i) (m := m) with ⟨hc, he⟩ | ⟨c, e, hc, hd, he⟩
    · rw [he]
      exact step_past (hat.trans hc)
    · cases e with
      | error f =>
        rw [he]
        exact hd.shift_error.step_eq (hat.trans hc)
      | ok e =>
        rw [hd.step_eq_going hs hc]
        exact hd.shift_ok.step_eq_going hs (hat.trans hc)

theorem steps_shift (hs : s.debug = false) :
    steps s (p ++ q) n (r.shift p.size) = (steps s q n r).shift p.size := by
  induction n generalizing r with
  | zero => rfl
  | succ n ih => rw [steps_succ, step_shift hs, ih, steps_succ]

end Run

/-- A run of both texts comes out at the end of the first, in no loop. -/
theorem Machine.exists_seam (hs : s.debug = false) (hp : ∀ k, p[k]? = some '[' → ∃ i, p.Partners k i)
    (h : m.run s p = some ⟨none, m'⟩) :
    ∃ k, steps s (p ++ q) k (.going 0 (m.inside [])) = (Run.going 0 (m'.inside [])).shift p.size := by
  obtain ⟨n, hn⟩ := exists_steps_of_run h
  obtain ⟨k, i, hi, hk⟩ := exists_going_of_complete hn
  have hr := reaches_of_steps hk
  obtain rfl : i = p.size := Nat.le_antisymm hr.le (Array.getElem?_eq_none_iff.1 hi)
  have hloops : m'.loops = [] := hr.loops.trans (openLoops_size_eq_nil hp)
  refine ⟨k, ?_⟩
  rw [steps_append hs hp hk (fun m h => by cases h)]
  show Run.going p.size m' = .going p.size (m'.inside [])
  rw [← hloops]
  rfl

/-- From there on it is a run of the second. -/
theorem Machine.run_append_of_seam {k : Nat} (hs : s.debug = false)
    (h : steps s (p ++ q) k (.going 0 (m.inside [])) = (Run.going 0 (m'.inside [])).shift p.size) :
    m.run s (p ++ q) = (m'.run s q).map (Ending.shift p.size) := by
  ext e
  rw [run_eq_some_iff_of_steps h, Option.map_eq_some_iff]
  constructor
  · intro he
    obtain ⟨n, hn⟩ := he
    have hn' : (steps s q n (.going 0 (m'.inside []))).shift p.size = .ended e.fault e.machine :=
      (steps_shift hs).symm.trans hn
    cases hq : steps s q n (.going 0 (m'.inside [])) with
    | going j m'' => rw [hq] at hn'; cases hn'
    | ended f m'' =>
      rw [hq] at hn'
      refine ⟨⟨f, m''⟩, run_eq_some_iff.2 ⟨n, hq⟩, ?_⟩
      cases e
      cases hn'
      rfl
  · intro he
    obtain ⟨e', he', rfl⟩ := he
    obtain ⟨n, hn⟩ := run_eq_some_iff.1 he'
    exact ⟨n, (steps_shift hs).trans (congrArg (Run.shift p.size) hn)⟩

/-- Two texts run one after the other as they run together, if every loop of
the first closes: a fault of the first is that of both, and what the second
does is the same but for its positions, which come after the first. -/
theorem run_append (hs : s.debug = false) (hp : ∀ k, p[k]? = some '[' → ∃ i, p.Partners k i) :
    m.run s (p ++ q) =
      match m.run s p with
      | none => none
      | some ⟨some f, m'⟩ => some ⟨some f, m'⟩
      | some ⟨none, m'⟩ => (m'.run s q).map (Ending.shift p.size) := by
  cases hrun : m.run s p with
  | none =>
    rw [Machine.run_eq_none_iff] at hrun ⊢
    intro n f m' h
    cases hr : steps s p n (.going 0 (m.inside [])) with
    | ended g m'' => exact hrun n g m'' hr
    | going i m'' =>
      rw [steps_append hs hp hr (fun m h => by cases h)] at h
      cases h
  | some e =>
    obtain ⟨f, m'⟩ := e
    cases f with
    | some f =>
      obtain ⟨n, hn⟩ := Machine.exists_steps_of_run hrun
      exact Machine.run_eq_some_iff.2 ⟨n, steps_append hs hp hn (fun m h => by cases h)⟩
    | none =>
      obtain ⟨k, hk⟩ := Machine.exists_seam hs hp hrun
      exact Machine.run_append_of_seam hs hk

/-- `+[-]` closes its loop, so the stray `]` of a `+]` after it cannot go back
into it; it fails as it does alone, 4 characters later. -/
theorem run_append_stray_leave :
    ((Machine.start (.blank 1 (by decide)) []).run {} (#['+', '[', '-', ']'] ++ #['+', ']'])).map (·.fault) =
      some (some (.unopened (4 + 1))) := by
  have hp : ∀ k, (#['+', '[', '-', ']'] : Program)[k]? = some '[' →
      ∃ i, Program.Partners #['+', '[', '-', ']'] k i := by
    intro k hk
    obtain rfl : k = 1 := by
      rcases k with - | - | - | - | k
      · cases hk
      · rfl
      · cases hk
      · cases hk
      · cases hk
    exact ⟨3, ['-'], by decide, ⟨rfl, rfl, rfl, trivial⟩, rfl⟩
  rw [run_append rfl hp]
  rfl

end TapeMachine
