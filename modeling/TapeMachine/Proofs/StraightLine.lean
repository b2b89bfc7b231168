/-
Texts that go straight through: no loops, and nothing written, read or
reported. Such a text takes the head from cell to cell, and as long as there
is a cell wherever it goes (`OnTape`), a run passes it and the machine is as
reckoned (`Run.exists_going_of_onTape`). Where the head would leave the tape
for the first time the run stops, and the machine is as reckoned up to there
(`run_straight`).
-/
import TapeMachine.Proofs.Reckoning

namespace TapeMachine

open Machine Run Program

variable {s : Setup} {p : Program} {i n : Nat} {m m' : Machine} {c : Char} {q : Int} {t u : List Char}

/-- The text has no loops, and is mute. -/
def Straight (t : List Char) : Prop := ∀ c ∈ t, c ∉ ['.', ',', '[', ']', '#']

/-- A head that begins at place `q` of `n` is on a cell wherever the text takes it. -/
def OnTape (n : Nat) (q : Int) (t : List Char) : Prop :=
  ∀ u, u <+: t → 0 ≤ q + displacement u ∧ q + displacement u < n

instance (t : List Char) : Decidable (Straight t) :=
  List.decidableBAll (p := fun c => c ∉ ['.', ',', '[', ']', '#']) t

/-! ## Texts -/

namespace Straight

theorem mute (h : Straight t) : Mute t := by
  intro c hc
  have := h c hc
  simp_all

theorem tail (h : Straight (c :: t)) : Straight t := (List.forall_mem_cons.1 h).2

theorem of_prefix (h : Straight t) (hu : u <+: t) : Straight u := fun c hc => h c (hu.subset hc)

/-- None of its characters is a bracket. -/
theorem exists_plain (h : Straight t) (hc : c ∈ t) : ∃ d : Plain, d.1 = c := by
  have := h c hc
  exact ⟨⟨c, by simp_all⟩, rfl⟩

theorem balanced (h : Straight t) : Balanced t := by
  induction t with
  | nil => exact .nil
  | cons c t ih =>
    obtain ⟨c, rfl⟩ := h.exists_plain List.mem_cons_self
    exact nesting_plain.trans (ih h.tail)

end Straight

theorem onTape_nil_iff : OnTape n q [] ↔ 0 ≤ q ∧ q < n := by
  simp [OnTape]

theorem onTape_cons_iff : OnTape n q (c :: t) ↔ (0 ≤ q ∧ q < n) ∧ OnTape n (q + displacement [c]) t := by
  have hshift (u : List Char) : q + displacement (c :: u) = q + displacement [c] + displacement u := by
    rw [displacement_cons, Int.add_assoc]
  constructor
  · intro h
    refine ⟨by simpa using h [] List.nil_prefix, fun u hu => ?_⟩
    rw [← hshift]
    exact h (c :: u) (List.cons_prefix_cons.2 ⟨rfl, hu⟩)
  · intro h u hu
    rcases List.prefix_cons_iff.1 hu with rfl | ⟨v, rfl, hv⟩
    · simpa using h.1
    · rw [hshift]
      exact h.2 v hv

instance decidableOnTape : (q : Int) → (t : List Char) → Decidable (OnTape n q t)
  | _, [] => decidable_of_iff _ onTape_nil_iff.symm
  | q, c :: t =>
    have := decidableOnTape (q + displacement [c]) t
    decidable_of_iff _ onTape_cons_iff.symm

/-- A text that takes the head off the tape has a first character that does. -/
theorem exists_first_off_tape (hq : 0 ≤ q ∧ q < n) (h : ¬ OnTape n q t) :
    ∃ u c, u ++ [c] <+: t ∧ OnTape n q u ∧ ¬ (0 ≤ q + displacement (u ++ [c]) ∧ q + displacement (u ++ [c]) < n) := by
  induction t generalizing q with
  | nil => exact absurd (onTape_nil_iff.2 hq) h
  | cons c t ih =>
    by_cases hc : 0 ≤ q + displacement [c] ∧ q + displacement [c] < n
    · obtain ⟨u, d, hu, hon, hoff⟩ := ih hc fun ht => h (onTape_cons_iff.2 ⟨hq, ht⟩)
      refine ⟨c :: u, d, List.cons_prefix_cons.2 ⟨rfl, hu⟩, onTape_cons_iff.2 ⟨hq, hon⟩, ?_⟩
      rwa [List.cons_append, displacement_cons, ← Int.add_assoc]
    · exact ⟨[], c, List.cons_prefix_cons.2 ⟨rfl, List.nil_prefix⟩, onTape_nil_iff.2 hq, hc⟩

/-! ## Runs -/

namespace Run

/-- A run passes a straight text that stays on the tape. -/
theorem exists_going_of_onTape (hs : s.debug = false) (hat : p.At i t) (ht : Straight t)
    (hon : OnTape m.tape.size m.tape.head t) :
    ∃ m', steps s p t.length (.going i m) = .going (i + t.length) m' ∧ trace s p t.length (.going i m) = t ∧
      m'.loops = m.loops := by
  induction t generalizing i m with
  | nil => exact ⟨m, rfl, rfl, rfl⟩
  | cons c t ih =>
    obtain ⟨c, rfl⟩ := ht.exists_plain List.mem_cons_self
    have hm : Mute [c.1] := fun d hd => ht.mute d (by simp_all)
    obtain ⟨-, hrest⟩ := onTape_cons_iff.1 hon
    have hnext := hrest [] List.nil_prefix
    rw [displacement_nil, Int.add_zero] at hnext
    rcases m.obey_reckons (s := s) hm with ⟨m₁, ho, hr⟩ | ⟨-, hoff⟩
    · have hstep := (Dispatch.plain ho).step_eq_going hs hat.1
      rw [← hr.tape.size, ← hr.tape.head] at hrest
      obtain ⟨m', hgo, htrace, hloops⟩ := ih hat.2 ht.tail hrest
      refine ⟨m', ?_, ?_, hloops.trans (loops_of_obey ho)⟩
      · rw [List.length_cons, steps_succ, hstep, hgo]
        congr 1
        omega
      · rw [List.length_cons, trace_going, hstep, htrace, hat.1]
        rfl
    · omega

/-- A character that takes the head off the tape ends the run, and the machine
stays as it is. -/
theorem step_of_off_tape {c : Plain} (hc : p[i]? = some c.1) (hm : Mute [c.1])
    (hoff : ¬ (0 ≤ m.tape.head + displacement [c.1] ∧ m.tape.head + displacement [c.1] < m.tape.size)) :
    step s p (.going i m) = .ended (some (.overflow (m.tape.head + displacement [c.1]))) m ∧
      (m.tape.head + displacement [c.1] = -1 ∨ m.tape.head + displacement [c.1] = m.tape.size) := by
  rcases m.obey_reckons (s := s) hm with ⟨m₁, -, hr⟩ | ⟨ho, hplace⟩
  · have hhead := hr.tape.head
    have hlt : m₁.tape.head < m₁.tape.size := m₁.tape.head_lt
    rw [hr.tape.size] at hlt
    omega
  · exact ⟨(Dispatch.fault ho).step_eq hc, hplace⟩

end Run

namespace Machine

/-- A run comes to the end of a straight beginning that stays on the tape. -/
theorem exists_arrives_of_onTape (hs : s.debug = false) (hu : u <+: p.toList) (ht : Straight u)
    (hon : OnTape m.tape.size m.tape.head u) : ∃ m', m.Arrives s p u u.length m' ∧ m'.loops = [] := by
  obtain ⟨v, hv⟩ := hu
  have hat : p.At 0 u := At.left (hv ▸ at_toList)
  obtain ⟨m', hgo, htrace, hloops⟩ := exists_going_of_onTape (m := m.inside []) hs hat ht hon
  rw [Nat.zero_add] at hgo
  exact ⟨m', Arrives.start.go hgo htrace, hloops⟩

theorem run_of_onTape (hs : s.debug = false) (hp : Straight p.toList) (hon : OnTape m.tape.size m.tape.head p.toList) :
    ∃ m', m.run s p = some ⟨none, m'⟩ ∧ m.Reckons p.toList m' ∧ m'.loops = [] := by
  obtain ⟨m', harr, hloops⟩ := exists_arrives_of_onTape hs (List.prefix_refl _) hp hon
  have hpast : p[p.toList.length]? = none := by simp
  exact ⟨m', (harr.ends (step_past hpast)).run, harr.reckons hs hp.mute, hloops⟩

/-- The first character that takes the head off the tape stops the run. -/
theorem run_of_off_tape (hs : s.debug = false) (hp : Straight p.toList) (hu : u ++ [c] <+: p.toList)
    (hon : OnTape m.tape.size m.tape.head u)
    (hoff : ¬ (0 ≤ m.tape.head + displacement (u ++ [c]) ∧ m.tape.head + displacement (u ++ [c]) < m.tape.size)) :
    ∃ m', m.run s p = some ⟨some (.overflow (m.tape.head + displacement (u ++ [c]))), m'⟩ ∧
      (m.tape.head + displacement (u ++ [c]) = -1 ∨ m.tape.head + displacement (u ++ [c]) = m.tape.size) ∧
      m.Reckons u m' ∧ m'.loops = [] := by
  have hpre : u <+: p.toList := (List.prefix_append u [c]).trans hu
  obtain ⟨m', harr, hloops⟩ := exists_arrives_of_onTape hs hpre (hp.of_prefix hpre) hon
  have hr := harr.reckons hs (hp.of_prefix hpre).mute
  -- the head is where the text before the character has led it
  have hplace : m.tape.head + displacement (u ++ [c]) = m'.tape.head + displacement [c] := by
    rw [hr.tape.head, displacement_append, Int.add_assoc]
  obtain ⟨v, hv⟩ := hu
  have hat : p.At 0 (u ++ [c]) := At.left (hv ▸ at_toList)
  have hc : p[u.length]? = some c := by simpa using hat.right.1
  have hmem : c ∈ p.toList := by simp [← hv]
  obtain ⟨c, rfl⟩ := hp.exists_plain hmem
  have hm : Mute [c.1] := fun d hd => hp.mute d (List.mem_singleton.1 hd ▸ hmem)
  rw [hplace, ← hr.tape.size] at hoff
  obtain ⟨hstep, hend⟩ := step_of_off_tape (s := s) hc hm hoff
  rw [hplace, ← hr.tape.size]
  exact ⟨m', (harr.ends hstep).run, hend, hr, hloops⟩

end Machine

/-- A straight program completes exactly if there is a cell wherever its moves
take the head. The machine is then as reckoned from the whole of its text:
the head has moved by all the moves together, each cell has changed by the
`+`s and `-`s done at it, and each character is a step. Otherwise the run stops at
the first character that takes the head off the tape, with the place that
the head would have had, one before the first cell or one behind the last,
and the machine is as reckoned from the text before that character. -/
theorem run_straight (hs : s.debug = false) (hp : Straight p.toList) :
    ((∃ m', m.run s p = some ⟨none, m'⟩) ↔ OnTape m.tape.size m.tape.head p.toList) ∧
    (OnTape m.tape.size m.tape.head p.toList →
      ∃ m', m.run s p = some ⟨none, m'⟩ ∧ m.Reckons p.toList m' ∧ m'.loops = []) ∧
    (¬ OnTape m.tape.size m.tape.head p.toList →
      ∃ u c m', u ++ [c] <+: p.toList ∧ OnTape m.tape.size m.tape.head u ∧
        m.run s p = some ⟨some (.overflow (m.tape.head + displacement (u ++ [c]))), m'⟩ ∧
        (m.tape.head + displacement (u ++ [c]) = -1 ∨ m.tape.head + displacement (u ++ [c]) = m.tape.size) ∧
        m.Reckons u m' ∧ m'.loops = []) := by
  have hlt : m.tape.head < m.tape.size := m.tape.head_lt
  refine ⟨⟨fun h => ?_, fun hon => ?_⟩, run_of_onTape hs hp, fun hoff => ?_⟩
  · obtain ⟨m', h⟩ := h
    by_contra hoff
    obtain ⟨u, c, hu, hon, hoff⟩ := exists_first_off_tape (by omega) hoff
    obtain ⟨m₁, hrun, -⟩ := run_of_off_tape hs hp hu hon hoff
    rw [h] at hrun
    cases hrun
  · obtain ⟨m', h, -⟩ := run_of_onTape hs hp hon
    exact ⟨m', h⟩
  · obtain ⟨u, c, hu, hon, hoff⟩ := exists_first_off_tape (by omega) hoff
    obtain ⟨m', h⟩ := run_of_off_tape hs hp hu hon hoff
    exact ⟨u, c, m', hu, hon, h⟩

/-- On two cells the second `<` of `->x+<<+` is stopped, after five steps. -/
theorem second_left_is_stopped :
    ∃ m', (start (.blank 2 (by decide)) []).run {} #['-', '>', 'x', '+', '<', '<', '+'] =
        some ⟨some (.overflow (-1)), m'⟩ ∧
      (start (.blank 2 (by decide)) []).Reckons ['-', '>', 'x', '+', '<'] m' ∧ m'.tape.cells = #[255, 1] := by
  obtain ⟨u, c, m', hu, -, hrun, -, hr, -⟩ := (run_straight (s := {}) (m := start (.blank 2 (by decide)) [])
    (p := #['-', '>', 'x', '+', '<', '<', '+']) rfl (by decide)).2.2 (by decide)
  obtain ⟨e, he, hf, hsteps, hcells⟩ : ∃ e : Ending,
      (start (.blank 2 (by decide)) []).run {} #['-', '>', 'x', '+', '<', '<', '+'] = some e ∧
        e.fault = some (.overflow (-1)) ∧ e.machine.tally.steps = 5 ∧ e.machine.tape.cells = #[255, 1] :=
    ⟨_, rfl, rfl, rfl, rfl⟩
  obtain rfl : e = ⟨_, m'⟩ := Option.some.inj (he.symm.trans hrun)
  dsimp only at hf hsteps hcells
  rw [hf] at he
  refine ⟨m', he, ?_, hcells⟩
  have hlen : 5 = 0 + u.length := by rw [← hsteps, hr.tally]; rfl
  have htake := List.prefix_iff_eq_take.1 ((List.prefix_append u [c]).trans hu)
  rw [← Nat.zero_add u.length, ← hlen] at htake
  rwa [htake] at hr

end TapeMachine
