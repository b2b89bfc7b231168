/-
Simple loops. The body is straight and brings the head back to the cell where
it began (`Circuit`), so every round does the same, and after `n` rounds each
cell has changed `n` times by what one round changes it by (`gain_rounds`).
The loop is left after the first round that makes the cell under the head 0
modulo 256; if no number of rounds does, it never ends (`run_simple_loop`).
-/
import Mathlib.Order.Bounds.Basic
import TapeMachine.Proofs.StraightLine

namespace TapeMachine

open Machine Run Program

variable {s : Setup} {n : Nat} {m m₁ m' : Machine} {o q : Int} {b : List Char}

/-- A straight text that takes a head at place `q` of `n` over cells only, and back. -/
structure Circuit (n : Nat) (q : Int) (b : List Char) : Prop where
  straight : Straight b
  onTape : OnTape n q b
  back : displacement b = 0

/-- The loop with this body. -/
def loopOf (b : List Char) : Program := ('[' :: (b ++ [']'])).toArray

/-- The characters that `n` rounds do. -/
def rounds (b : List Char) (n : Nat) : List Char := (List.replicate n (b ++ [']'])).flatten

/-- So many rounds take a cell that held `x` to 0. -/
def Clears (x : UInt8) (b : List Char) (n : Nat) : Prop := (x.toNat + n * gain b 0 : Int) % 256 = 0

/-- The second machine is the first after a loop of `n` rounds. -/
structure Machine.Looped (b : List Char) (n : Nat) (m m' : Machine) : Prop where
  size : m'.tape.size = m.tape.size
  head : m'.tape.head = m.tape.head
  cell : m'.tape.cell = 0
  value : ∀ i < m.tape.size, i ≠ m.tape.head →
    ((m'.tape.value i).toNat : Int) = ((m.tape.value i).toNat + n * gain b (i - m.tape.head)) % 256
  loops : m'.loops = []
  unread : m'.unread = m.unread
  tally : m'.tally = { m.tally with steps := m.tally.steps + (1 + n * (b.length + 1)) }
  pauses : m'.pauses = m.pauses
  log : m'.log = m.log

/-! ## Texts -/

theorem rounds_succ : '[' :: rounds b (n + 1) = '[' :: rounds b n ++ b ++ [']'] := by
  simp [rounds, List.replicate_succ']

theorem rounds_cons : rounds b (n + 1) = b ++ ']' :: rounds b n := by
  simp [rounds, List.replicate_succ]

theorem length_rounds : ('[' :: rounds b n).length = 1 + n * (b.length + 1) := by
  simp [rounds, Nat.add_comm]

theorem displacement_rounds (h : displacement b = 0) : displacement ('[' :: rounds b n) = 0 := by
  induction n with
  | zero => rfl
  | succ n ih =>
    rw [rounds_succ, displacement_append, displacement_append, ih, h]
    rfl

/-- So many rounds change a cell so many times by what one round does. -/
theorem gain_rounds (h : displacement b = 0) : gain ('[' :: rounds b n) o = n * gain b o := by
  induction n with
  | zero => simp [rounds, gain_of_not_mem]
  | succ n ih =>
    have hleave : gain [']'] (o - 0) = 0 := gain_of_not_mem (by decide) (by decide)
    rw [rounds_succ, gain_append, gain_append, ih, displacement_append, displacement_rounds h, h, Int.sub_zero,
      Int.add_zero, hleave, Int.add_zero, Int.natCast_succ, Int.add_mul, Int.one_mul]

/-- The guard at the end of the next round. -/
theorem gain_round (h : displacement b = 0) : gain ('[' :: rounds b n ++ b) o = (n + 1 : Nat) * gain b o := by
  rw [gain_append, gain_rounds h, displacement_rounds h, Int.sub_zero, Int.natCast_succ, Int.add_mul, Int.one_mul]

theorem clears_zero_iff {x : UInt8} : Clears x b 0 ↔ x = 0 := by
  have := x.toNat_lt
  have hzero : x = 0 ↔ x.toNat = 0 := UInt8.toNat_inj.symm
  rw [Clears, Int.natCast_zero, Int.zero_mul, Int.add_zero, hzero]
  omega

theorem Straight.mute_rounds (h : Straight b) : Mute ('[' :: rounds b n) := by
  have hleave : Mute [']'] := by decide
  have hround : Mute (b ++ [']']) := List.forall_mem_append.2 ⟨h.mute, hleave⟩
  intro c hc
  rcases List.mem_cons.1 hc with rfl | hc
  · decide
  · obtain ⟨r, hr, hcr⟩ := List.mem_flatten.1 hc
    exact hround c (List.eq_of_mem_replicate hr ▸ hcr)

/-! ## The loop -/

theorem loopOf_at : (loopOf b).At 0 ('[' :: (b ++ [']'])) := at_toList

theorem Straight.partners_loopOf (h : Straight b) : (loopOf b).Partners 0 (b.length + 1) :=
  ⟨b, h.balanced, loopOf_at, by omega⟩

theorem loopOf_past : (loopOf b)[b.length + 2]? = none := by
  simp [loopOf]

namespace Circuit

variable (hs : s.debug = false) (hc : Circuit m.tape.size m.tape.head b)

include hs hc

/-- A run passes the body once more, to the `]`. -/
theorem exists_round (h : m.Arrives s (loopOf b) ('[' :: rounds b n) 1 m₁) :
    ∃ m', m.Arrives s (loopOf b) ('[' :: rounds b n ++ b) (b.length + 1) m' ∧ m'.loops = m₁.loops ∧
      (m'.tape.cell = 0 ↔ Clears m.tape.cell b (n + 1)) := by
  have hr := (h.reckons hs hc.straight.mute_rounds).tape
  have hon := hc.onTape
  have hhead := hr.head
  rw [displacement_rounds hc.back, Int.add_zero] at hhead
  rw [← hr.size, ← hhead] at hon
  obtain ⟨m', hgo, htrace, hloops⟩ := exists_going_of_onTape hs loopOf_at.2.left hc.straight hon
  have harr := h.go hgo htrace
  rw [Nat.add_comm 1] at harr
  refine ⟨m', harr, hloops, ?_⟩
  have hmute : Mute ('[' :: rounds b n ++ b) := List.forall_mem_append.2 ⟨hc.straight.mute_rounds, hc.straight.mute⟩
  have hback : displacement ('[' :: rounds b n ++ b) = 0 := by
    rw [displacement_append, displacement_rounds hc.back, hc.back, Int.add_zero]
  have hcell := (harr.reckons hs hmute).tape.cell hback
  rw [gain_round hc.back] at hcell
  rw [Clears, ← hcell, ← UInt8.toNat_inj]
  simp

/-- As long as the cell has not come to 0, the next round begins. -/
theorem exists_rounds (hne : ∀ k ≤ n, ¬ Clears m.tape.cell b k) :
    ∃ m', m.Arrives s (loopOf b) ('[' :: rounds b n) 1 m' ∧ m'.loops = [0] := by
  induction n with
  | zero =>
    have hz : (m.inside []).tape.cell ≠ 0 := fun h => hne 0 (Nat.le_refl 0) (clears_zero_iff.2 h)
    exact ⟨_, Arrives.start.step loopOf_at.1 ((Dispatch.enter hz).step_eq_going hs loopOf_at.1), rfl⟩
  | succ n ih =>
    obtain ⟨m₁, harr, hloops⟩ := ih fun k hk => hne k (Nat.le_succ_of_le hk)
    obtain ⟨m₂, hround, hkept, hzero⟩ := exists_round hs hc harr
    have hz : m₂.tape.cell ≠ 0 := fun h => hne (n + 1) (Nat.le_refl _) (hzero.1 h)
    have hl : (loopOf b)[b.length + 1]? = some ']' := hc.straight.partners_loopOf.leave
    rw [rounds_succ]
    exact ⟨_, hround.step hl ((Dispatch.back hz (hkept.trans hloops)).step_eq_going hs hl), hkept.trans hloops⟩

/-- The round that takes the cell to 0 is the last. -/
theorem exists_last_round (h : IsLeast {k | Clears m.tape.cell b k} n) :
    ∃ m', m.Arrives s (loopOf b) ('[' :: rounds b n) (b.length + 2) m' ∧ m'.loops = [] ∧ m'.tape.cell = 0 := by
  have hp : (loopOf b).Partners 0 (b.length + 1) := hc.straight.partners_loopOf
  cases n with
  | zero =>
    have hz : (m.inside []).tape.cell = 0 := clears_zero_iff.1 h.1
    exact ⟨_, Arrives.start.step hp.enter ((Dispatch.skip hz hp).step_eq_going hs hp.enter), rfl, hz⟩
  | succ n =>
    have hne (k : Nat) (hk : k ≤ n) : ¬ Clears m.tape.cell b k := fun hclear => by
      have := h.2 hclear
      omega
    obtain ⟨m₁, harr, hloops⟩ := exists_rounds hs hc hne
    obtain ⟨m₂, hround, hkept, hzero⟩ := exists_round hs hc harr
    have hz : m₂.tape.cell = 0 := hzero.2 h.1
    rw [rounds_succ]
    refine ⟨_, hround.step hp.leave ((Dispatch.leave hz).step_eq_going hs hp.leave), ?_, hz⟩
    simp [countStep, hkept, hloops]

end Circuit

theorem Machine.Reckons.looped (h : m.Reckons ('[' :: rounds b n) m') (hb : displacement b = 0)
    (hcell : m'.tape.cell = 0) (hloops : m'.loops = []) : m.Looped b n m' where
  size := h.tape.size
  head := by
    have := h.tape.head
    rw [displacement_rounds hb] at this
    omega
  cell := hcell
  value i hi _ := by rw [h.tape.value i hi, gain_rounds hb]
  loops := hloops
  unread := h.unread
  tally := by rw [h.tally, length_rounds]
  pauses := h.pauses
  log := h.log

/-- A loop whose straight body brings the head back to where it was does as many
rounds as it takes to bring the cell there to 0, if some number of rounds
does; each other cell has then changed so many times by what one round
changes it by. If no number of rounds brings the cell to 0, the loop never ends. -/
theorem run_simple_loop (hs : s.debug = false) (hc : Circuit m.tape.size m.tape.head b) :
    ((∃ k, Clears m.tape.cell b k) →
      ∃ n m', IsLeast {k | Clears m.tape.cell b k} n ∧
        m.Ends s (loopOf b) ('[' :: rounds b n) ⟨none, m'⟩ ∧ m.Looped b n m') ∧
    ((¬ ∃ k, Clears m.tape.cell b k) →
      m.run s (loopOf b) = none ∧ ∀ k, ∃ j m', steps s (loopOf b) k (.going 0 (m.inside [])) = .going j m') := by
  classical
  refine ⟨fun h => ?_, fun h => ?_⟩
  · have hleast : IsLeast {k | Clears m.tape.cell b k} (Nat.find h) :=
      ⟨Nat.find_spec h, fun k hk => Nat.find_min' h hk⟩
    obtain ⟨m', harr, hloops, hcell⟩ := hc.exists_last_round hs hleast
    have hends := harr.ends (step_past loopOf_past)
    rw [loopOf_past, Option.toList_none, List.append_nil] at hends
    exact ⟨_, m', hleast, hends, (harr.reckons hs hc.straight.mute_rounds).looped hc.back hcell hloops⟩
  · have hgoing (k : Nat) : ∃ j m', steps s (loopOf b) k (.going 0 (m.inside [])) = .going j m' := by
      obtain ⟨m₁, harr, -⟩ := hc.exists_rounds (n := k) hs fun k _ hk => h ⟨k, hk⟩
      have hrounds := harr.steps
      cases hk : steps s (loopOf b) k (.going 0 (m.inside [])) with
      | going j m' => exact ⟨j, m', rfl⟩
      | ended f m' =>
        -- a run that has ended after `k` steps has not come to the end of round `k`
        rw [length_rounds, steps_ended_mono (by simp [Nat.mul_succ]; omega) hk] at hrounds
        cases hrounds
    exact ⟨run_eq_none_iff_going.2 hgoing, hgoing⟩

/-- From 1, `+++` takes 85 rounds to come to 0, and `++` never does. -/
theorem eighty_five_rounds :
    (∃ m', (start ((Tape.blank 2 (by decide)).write 1) []).Ends {} (loopOf ['+', '+', '+', '>', '-', '<'])
        ('[' :: rounds ['+', '+', '+', '>', '-', '<'] 85) ⟨none, m'⟩ ∧
      m'.tape.value 1 = 171 ∧ m'.tally.steps = 596) ∧
    (start ((Tape.blank 2 (by decide)).write 1) []).run {} (loopOf ['+', '+']) = none := by
  have hthree (k : Nat) : Clears 1 ['+', '+', '+', '>', '-', '<'] k ↔ (1 + k * 3 : Int) % 256 = 0 := Iff.rfl
  have htwo (k : Nat) : Clears 1 ['+', '+'] k ↔ (1 + k * 2 : Int) % 256 = 0 := Iff.rfl
  constructor
  · have hleast : IsLeast {k | Clears 1 ['+', '+', '+', '>', '-', '<'] k} 85 := by
      refine ⟨(hthree 85).2 rfl, fun k hk => ?_⟩
      have := (hthree k).1 hk
      omega
    obtain ⟨n, m', hn, hends, hlooped⟩ := (run_simple_loop (s := {}) rfl
      (m := start ((Tape.blank 2 (by decide)).write 1) []) ⟨by decide, by decide, rfl⟩).1 ⟨85, hleast.1⟩
    obtain rfl := hn.unique hleast
    refine ⟨m', hends, ?_, by rw [hlooped.tally]; rfl⟩
    rw [← UInt8.toNat_inj, ← Int.ofNat_inj]
    exact hlooped.value 1 (by decide) (by decide)
  · refine ((run_simple_loop (s := {}) rfl ⟨by decide, by decide, rfl⟩).2 fun h => ?_).1
    obtain ⟨k, hk⟩ := h
    have := (htwo k).1 hk
    omega

end TapeMachine
