/-
The length of the tape. A run that ends and was not stopped by the right end
of its tape has come as far as some cell `top`. On every tape that has this
cell it does the same, and on every shorter one it is stopped at the right
end (`tape_length_matters_when_hit`), since the head moves by one cell at a
time and has to pass there.

Both halves are one comparison (`Machine.Fits`): two runs on tapes of
different lengths stay together while the head stays below a bound that is
on both tapes.
-/
import Mathlib.Order.Bounds.Basic
import TapeMachine.Proofs.Lockstep
import TapeMachine.Proofs.Record
import TapeMachine.Proofs.ReportText

namespace TapeMachine

open Machine Run Program

variable {s : Setup} {p : Program} {i n : Nat} {m m' m₁ : Machine} {r r' : Run}

/-! ## Tapes of different lengths -/

/-- Both tapes have the cells up to `top`, where the heads are, and the same in
them; all cells beyond are 0. -/
structure Tape.Agrees (top : Nat) (t u : Tape) : Prop where
  head : t.head = u.head
  head_le : t.head ≤ top
  left : top < t.size
  right : top < u.size
  value : t.value = u.value
  beyond : ∀ i, top < i → t.value i = 0

namespace Tape.Agrees

variable {top : Nat} {t u t' : Tape}

theorem blank {a b : Nat} (ha : 0 < a) (hb : 0 < b) (hta : top < a) (htb : top < b) :
    Agrees top (.blank a ha) (.blank b hb) where
  head := rfl
  head_le := Nat.zero_le _
  left := by rwa [size_blank]
  right := by rwa [size_blank]
  value := by funext i; rw [value_blank, value_blank]
  beyond i _ := value_blank

theorem cell (h : Agrees top t u) : t.cell = u.cell := by rw [cell_eq_value, cell_eq_value, h.head, h.value]

theorem write {v : UInt8} (h : Agrees top t u) : Agrees top (t.write v) (u.write v) where
  head := h.head
  head_le := h.head_le
  left := by rw [size_write]; exact h.left
  right := by rw [size_write]; exact h.right
  value := by
    funext i
    rw [value_write, value_write, h.head, h.value]
  beyond i hi := by
    have := h.head_le
    rw [value_write, if_neg (by omega), h.beyond i hi]

theorem right? (h : Agrees top t u) (ht : t.right? = some t') (hle : t'.head ≤ top) :
    ∃ u', u.right? = some u' ∧ Agrees top t' u' := by
  obtain ⟨hc, hh⟩ := right?_eq_some_iff.1 ht
  have hhead := h.head
  have hr := h.right
  have hu : u.head + 1 < u.cells.size := by
    show u.head + 1 < u.size
    omega
  refine ⟨⟨u.cells, u.head + 1, hu⟩, right?_eq_some_iff.2 ⟨rfl, rfl⟩, ?_, hle, ?_, hr, ?_, ?_⟩
  · rw [hh, hhead]
  · rw [size, hc]
    exact h.left
  · rw [value_eq_of_cells_eq hc, h.value]
    rfl
  · rw [value_eq_of_cells_eq hc]
    exact h.beyond

theorem left? (h : Agrees top t u) (ht : t.left? = some t') : ∃ u', u.left? = some u' ∧ Agrees top t' u' := by
  obtain ⟨hc, hh⟩ := left?_eq_some_iff.1 ht
  have hhead := h.head
  have hle := h.head_le
  obtain ⟨u', hu⟩ : ∃ u', u.left? = some u' := by
    cases hu : u.left? with
    | none =>
      rw [left?_eq_none_iff] at hu
      omega
    | some u' => exact ⟨u', rfl⟩
  obtain ⟨hc', hh'⟩ := left?_eq_some_iff.1 hu
  refine ⟨u', hu, by omega, by omega, ?_, ?_, ?_, ?_⟩
  · rw [size, hc]
    exact h.left
  · rw [size, hc']
    exact h.right
  · rw [value_eq_of_cells_eq hc, value_eq_of_cells_eq hc', h.value]
  · rw [value_eq_of_cells_eq hc]
    exact h.beyond

end Tape.Agrees

/-- Machines that differ in the length of their tapes only, and in windows that
show it. -/
structure Machine.Fits (s : Setup) (top : Nat) (m m' : Machine) : Prop where
  tape : m.tape.Agrees top m'.tape
  loops : m.loops = m'.loops
  unread : m.unread = m'.unread
  tally : m.tally = m'.tally
  log : m.log.map Event.unwindowed = m'.log.map Event.unwindowed
  exact : s.view = none → m.log = m'.log

/-- Runs keep this while the head stays below the bound and does not come upon
the end of the first tape. -/
theorem Machine.Fits.lockstep {top : Nat} :
    Lockstep s (fun r => r.machine.tape.head ≤ top ∧ ∀ m, r ≠ .ended (some (.overflow m.tape.size)) m)
      (Fits s top) where
  cell hr := hr.tape.cell
  loops hr := hr.loops
  bracket hr :=
    ⟨hr.tape, rfl, hr.unread, congrArg (fun t => { t with steps := t.steps + 1 }) hr.tally, hr.log, hr.exact⟩
  plain {i m m' m₁ cmd} hr ho hok := by
    obtain ⟨ht, hl, hu, htally, hlog, hexact⟩ := hr
    have hsteps : m.countStep.tally = m'.countStep.tally := congrArg (fun t => { t with steps := t.steps + 1 }) htally
    cases ho with
    | comment => exact ⟨_, .comment, ht, hl, hu, hsteps, hlog, hexact⟩
    | right ho =>
      obtain ⟨u, ho', ht'⟩ := ht.right? ho hok.1
      exact ⟨_, .right ho', ht', hl, hu, hsteps, hlog, hexact⟩
    | left ho =>
      obtain ⟨u, ho', ht'⟩ := ht.left? ho
      exact ⟨_, .left ho', ht', hl, hu, hsteps, hlog, hexact⟩
    | increment =>
      refine ⟨_, .increment, ?_, hl, hu, hsteps, hlog, hexact⟩
      show Tape.Agrees top (m.tape.write (m.tape.cell + 1)) (m'.tape.write (m'.tape.cell + 1))
      rw [← ht.cell]
      exact ht.write
    | decrement =>
      refine ⟨_, .decrement, ?_, hl, hu, hsteps, hlog, hexact⟩
      show Tape.Agrees top (m.tape.write (m.tape.cell - 1)) (m'.tape.write (m'.tape.cell - 1))
      rw [← ht.cell]
      exact ht.write
    | put =>
      refine ⟨_, .put, ht, hl, hu, ?_, ?_, fun hv => ?_⟩
      · exact congrArg (fun t => { t with writes := t.writes + 1, steps := t.steps + 1 }) htally
      · simp only [countStep, List.map_cons, ht.cell, hlog]
      · simp only [countStep, ht.cell, hexact hv]
    | report =>
      refine ⟨_, .report, ht, hl, hu, hsteps, ?_, fun hv => ?_⟩
      · simp only [countStep, Machine.report, note, List.map_cons, hlog, Event.unwindowed, Tape.report, ht.head, ht.cell]
      · simp only [countStep, Machine.report, note, hexact hv, Tape.report, ht.head, ht.cell, hv, Option.map_none]
    | get =>
      refine ⟨_, .get, ?_, ?_, ?_, ?_, ?_, fun hv => ?_⟩
      · simp only [countStep, readItem_fst, hu]
        exact ht.write
      · simpa [countStep] using hl
      · simp [countStep, hu]
      · simp only [countStep, readItem, hu, htally]
        cases m'.unread <;> rfl
      · simp only [countStep, readItem, hu]
        cases m'.unread <;> simp [Event.unwindowed, hlog]
      · simp only [countStep, readItem, hu, hexact hv]
        cases m'.unread <;> rfl
  fault {m m' f cmd} hr ho hok := by
    have hhead := hr.tape.head
    cases ho with
    | pastRight ho =>
      rw [Tape.right?_eq_none_iff] at ho
      refine absurd ?_ (hok.2 m)
      rw [← ho]
      rfl
    | pastLeft ho =>
      rw [Tape.left?_eq_none_iff] at ho
      rw [hhead] at ho ⊢
      exact .pastLeft (Tape.left?_eq_none_iff.2 ho)

/-! ## The end of a shorter tape -/

/-- Only a move to the right leads past the bound, and where the other tape ends
there it fails. -/
theorem Machine.Fits.crossing {b : Nat} {cmd : Option Command} (h : m.Fits s b m') (hsize : m'.tape.size = b + 1)
    (ho : Obeys s m cmd (.ok m₁)) (hb : b < m₁.tape.head) :
    Obeys s m' cmd (.error (.overflow (b + 1 : Nat))) := by
  have hle := h.tape.head_le
  have hhead := h.tape.head
  cases ho with
  | right ht =>
    obtain ⟨-, ht⟩ := Tape.right?_eq_some_iff.1 ht
    have hb : b < m.tape.head + 1 := ht ▸ hb
    obtain rfl : b = m'.tape.head := by omega
    exact .pastRight (Tape.right?_eq_none_iff.2 hsize.symm)
  | left ht =>
    obtain ⟨-, ht⟩ := Tape.left?_eq_some_iff.1 ht
    have hb : b < _ := hb
    dsimp only [countStep] at hb
    omega
  | comment | increment | decrement | put | report => exact absurd hle (Nat.not_le.2 hb)
  | get => exact absurd hle (Nat.not_le.2 hb)

/-- The step in which a run passes the bound is the last one on a tape that
ends there. -/
theorem Run.step_crossing {b : Nat} (hs : s.debug = false) (h : m.Fits s b m') (hsize : m'.tape.size = b + 1)
    (hb : b < (step s p (.going i m)).machine.tape.head) :
    step s p (.going i m') = .ended (some (.overflow (b + 1 : Nat))) m' := by
  have hle := h.tape.head_le
  cases hc : p[i]? with
  | none =>
    rw [step_past hc] at hb
    exact absurd hle (Nat.not_le.2 hb)
  | some c =>
    rcases or_assoc.2 (char_cases c) with hbr | ⟨c, rfl⟩
    · rcases step_bracket (m := m) hs hc hbr with ⟨j, l, he⟩ | ⟨f, he⟩
      · rw [he m rfl rfl] at hb
        exact absurd hle (Nat.not_le.2 hb)
      · rw [he m rfl rfl] at hb
        exact absurd hle (Nat.not_le.2 hb)
    · have hobeys := m.obeys (s := s) (c := c)
      cases ho : m.obey s c with
      | ok m₁ =>
        rw [ho] at hobeys
        rw [(Dispatch.plain ho).step_eq_going hs hc] at hb
        exact (Dispatch.fault (h.crossing hsize hobeys hb).obey_eq).step_eq hc
      | error f =>
        rw [(Dispatch.fault ho).step_eq hc] at hb
        exact absurd hle (Nat.not_le.2 hb)

/-- Where a run first passes the bound. -/
theorem Run.exists_crossing {b k : Nat} (hr : r.machine.tape.head ≤ b)
    (hk : b < (steps s p k r).machine.tape.head) :
    ∃ n, (∀ j ≤ n, (steps s p j r).machine.tape.head ≤ b) ∧ b < (steps s p (n + 1) r).machine.tape.head := by
  induction k generalizing r with
  | zero => exact absurd hr (Nat.not_le.2 hk)
  | succ k ih =>
    by_cases h : (step s p r).machine.tape.head ≤ b
    · obtain ⟨n, hn, hcross⟩ := ih h hk
      refine ⟨n + 1, fun j hj => ?_, hcross⟩
      cases j with
      | zero => exact hr
      | succ j => exact hn j (by omega)
    · refine ⟨0, fun j hj => ?_, Nat.lt_of_not_le h⟩
      obtain rfl : j = 0 := by omega
      exact hr

theorem Run.size_steps : (steps s p n (.going 0 (m.inside []))).machine.tape.size = m.tape.size := by
  have h : Within p m (steps s p n (.going 0 (m.inside []))) := Within.steps Machine.Reaches.refl
  generalize steps s p n (.going 0 (m.inside [])) = r at h ⊢
  cases r with
  | going j m' => exact h.size
  | ended f m' =>
    cases f with
    | none => exact h.size
    | some f =>
      obtain ⟨j, h⟩ := h
      exact h.size

/-! ## Runs on tapes of different lengths -/

/-- A machine that has done nothing yet, on a tape of so many zeros. -/
def Machine.fresh (length : Nat) (h : 0 < length) (input : List UInt8) : Machine := start (.blank length h) input

/-- The cells that the head of a run comes to. -/
def Machine.visited (s : Setup) (p : Program) (m : Machine) : Set Nat :=
  Set.range fun k => (steps s p k (.going 0 (m.inside []))).machine.tape.head

section

variable {a b top : Nat} {ha : 0 < a} {input : List UInt8} {e : Ending}

theorem Machine.size_fresh : (fresh a ha input).tape.size = a := Tape.size_blank (h := ha)

theorem Machine.fits_fresh (ha : 0 < a) (hb : 0 < b) (hta : top < a) (htb : top < b) :
    Fits s top ((fresh a ha input).inside []) ((fresh b hb input).inside []) :=
  ⟨.blank ha hb hta htb, rfl, rfl, rfl, rfl, fun _ => rfl⟩

theorem Machine.lt_of_visited (h : top ∈ (fresh a ha input).visited s p) : top < a := by
  obtain ⟨k, rfl⟩ := h
  have hsize := size_steps (s := s) (p := p) (n := k) (m := fresh a ha input)
  exact Nat.lt_of_lt_of_eq (Tape.head_lt _) (hsize.trans size_fresh)

/-- A tape with all the visited cells is long enough. -/
theorem Machine.exists_fits_of_run (hb : 0 < b) (hs : s.debug = false) (h : (fresh a ha input).run s p = some e)
    (hf : e.fault ≠ some (.overflow a)) (htop : IsGreatest ((fresh a ha input).visited s p) top)
    (htb : top < b) : ∃ m₁, (fresh b hb input).run s p = some ⟨e.fault, m₁⟩ ∧ e.machine.Fits s top m₁ := by
  obtain ⟨t, ht⟩ := exists_ends_of_run h
  obtain ⟨n, hn⟩ := exists_steps_of_run h
  have hok (k : Nat) : (steps s p k (.going 0 ((fresh a ha input).inside []))).machine.tape.head ≤ top ∧
      ∀ m, steps s p k (.going 0 ((fresh a ha input).inside [])) ≠ .ended (some (.overflow m.tape.size)) m := by
    refine ⟨htop.2 ⟨k, rfl⟩, fun m hm => hf ?_⟩
    have hsize : m.tape.size = a := by
      have := size_steps (s := s) (p := p) (n := k) (m := fresh a ha input)
      rw [hm] at this
      exact this.trans size_fresh
    have hsame := steps_ended_mono (Nat.le_max_left k n) hm
    rw [steps_ended_mono (Nat.le_max_right k n) hn] at hsame
    injection hsame with hfault
    rw [hfault, hsize]
  obtain ⟨m₁, hends, hfits⟩ := Fits.lockstep.ends hs (fits_fresh ha hb (lt_of_visited htop.1) htb) ht hok
  exact ⟨m₁, hends.run, hfits⟩

/-- On a tape that ends before a visited cell a run is stopped at the end, at a
place that the other run passes. -/
theorem Machine.overflow_of_visited (hs : s.debug = false) (h : (fresh a ha input).run s p = some e)
    (hk : top ∈ (fresh a ha input).visited s p) (hbt : b < top) :
    ∃ m₁ m₂ : Machine, ∃ u,
      (fresh (b + 1) (Nat.succ_pos b) input).run s p = some ⟨some (.overflow (b + 1 : Nat)), m₁⟩ ∧
      m₂.Fits s b m₁ ∧ e.machine.log = u ++ m₂.log := by
  have hba : b < a := Nat.lt_trans hbt (lt_of_visited hk)
  obtain ⟨k, rfl⟩ := hk
  obtain ⟨n, hn, hcross⟩ := exists_crossing (r := .going 0 ((fresh a ha input).inside [])) (Nat.zero_le b) hbt
  -- where the bound is passed the run has not ended before
  cases hat : steps s p n (.going 0 ((fresh a ha input).inside [])) with
  | ended f m₂ =>
    have hle := hn n (Nat.le_refl n)
    rw [steps_ended_mono (Nat.le_succ n) hat] at hcross
    rw [hat] at hle
    exact absurd hle (Nat.not_le.2 hcross)
  | going i m₂ =>
    have hrel : Related (Fits s b) (steps s p n (.going 0 ((fresh a ha input).inside [])))
        (steps s p n (.going 0 ((fresh (b + 1) (Nat.succ_pos b) input).inside []))) := by
      refine Fits.lockstep.steps hs (.going (fits_fresh ha (Nat.succ_pos b) hba (Nat.lt_succ_self b)))
        fun j hj => ⟨hn j hj, fun m hm => ?_⟩
      rw [steps_ended_mono hj hm] at hat
      cases hat
    have hsize := size_steps (s := s) (p := p) (n := n) (m := fresh (b + 1) (Nat.succ_pos b) input)
    rw [hat] at hrel
    rw [steps_add, hat] at hcross
    generalize hat' : steps s p n (.going 0 ((fresh (b + 1) (Nat.succ_pos b) input).inside [])) = r' at hrel hsize
    cases hrel with
    | @going _ _ m₁ hfits =>
      have hlast := step_crossing hs hfits (hsize.trans size_fresh) hcross
      obtain ⟨c, hc⟩ := (run_eq_some_iff_of_steps hat).1 h
      obtain ⟨u, hu⟩ := exists_log_of_steps (s := s) (p := p) (n := c) (r := .going i m₂)
      rw [hc] at hu
      refine ⟨m₁, m₂, u, run_eq_some_iff.2 ⟨n + 1, ?_⟩, hfits, hu⟩
      rw [steps_add, hat']
      exact hlast

/-- The length of the tape matters only when the head comes upon its end. Let a
run end, not at the right end of its tape, and let `top` be the last cell
that the head comes to. On every tape with that cell the run is the same and
leaves the same values, which are 0 beyond `top`; a window drawn in a report
may end elsewhere, which is all the difference that there is. On every
shorter tape the run is stopped at the right end, and what it has written is
the beginning of what it writes with more room. -/
theorem tape_length_matters_when_hit (hs : s.debug = false) (h : (fresh a ha input).run s p = some e)
    (hf : e.fault ≠ some (.overflow a)) (htop : IsGreatest ((fresh a ha input).visited s p) top) :
    (∀ (b : Nat) (hb : 0 < b), top < b → ∃ e', (fresh b hb input).run s p = some e' ∧
      e'.fault = e.fault ∧ e'.machine.tape.head = e.machine.tape.head ∧ e'.machine.loops = e.machine.loops ∧
      e'.machine.tally = e.machine.tally ∧ e'.machine.unread = e.machine.unread ∧
      e'.machine.log.textOn .output = e.machine.log.textOn .output ∧
      e'.machine.log.map Event.unwindowed = e.machine.log.map Event.unwindowed ∧
      (s.view = none → e'.machine.log = e.machine.log) ∧
      (∀ i, e'.machine.tape.value i = e.machine.tape.value i) ∧ ∀ i, top < i → e'.machine.tape.value i = 0) ∧
    ∀ (b : Nat) (hb : 0 < b), b ≤ top → ∃ m', (fresh b hb input).run s p = some ⟨some (.overflow b), m'⟩ ∧
      ∃ rest, e.machine.log.textOn .output = m'.log.textOn .output ++ rest := by
  constructor
  · intro b hb htb
    obtain ⟨m₁, hrun, hfits⟩ := exists_fits_of_run hb hs h hf htop htb
    have hvalue := hfits.tape.value
    refine ⟨_, hrun, rfl, hfits.tape.head.symm, hfits.loops.symm, hfits.tally.symm, hfits.unread.symm,
      (Transcript.textOn_output_eq_of_unwindowed_eq hfits.log).symm, hfits.log.symm, fun hv => (hfits.exact hv).symm,
      fun i => (congrFun hvalue i).symm, fun i hi => ?_⟩
    rw [← hvalue]
    exact hfits.tape.beyond i hi
  · intro b hb hbt
    obtain ⟨b, rfl⟩ : ∃ k, b = k + 1 := ⟨b - 1, by omega⟩
    obtain ⟨m₁, m₂, u, hrun, hfits, hlog⟩ := overflow_of_visited hs h htop.1 hbt
    refine ⟨m₁, hrun, u.textOn .output, ?_⟩
    rw [hlog, Transcript.textOn_append, Transcript.textOn_output_eq_of_unwindowed_eq hfits.log]

end

/-- The head of `+.>.<` comes to the cells 0 and 1, so on one cell it is stopped. -/
theorem one_cell_is_too_short :
    ∃ m', (Machine.fresh 1 (by decide) []).run {} #['+', '.', '>', '.', '<'] = some ⟨some (.overflow 1), m'⟩ ∧
      ∃ rest, "\x01\x00" = m'.log.textOn .output ++ rest := by
  have htop : IsGreatest ((Machine.fresh 9 (by decide) []).visited {} #['+', '.', '>', '.', '<']) 1 := by
    refine ⟨⟨3, rfl⟩, ?_⟩
    rintro _ ⟨k, rfl⟩
    have hend : steps {} #['+', '.', '>', '.', '<'] 6 (.going 0 ((Machine.fresh 9 (by decide) []).inside [])) =
        .ended none _ := rfl
    rcases Nat.le_total 6 k with hk | hk
    · dsimp only
      rw [steps_ended_mono hk hend]
      decide
    · revert k
      decide
  exact (tape_length_matters_when_hit (s := {}) (e := ⟨none, _⟩) rfl rfl (by decide) htop).2 1 (by decide) (by decide)

end TapeMachine
