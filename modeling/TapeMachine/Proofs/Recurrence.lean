/-
A run that comes back to where it has been goes round for ever. Where a run
stands is its cursor, its tape, the length of its input and, under an
observer that may break it off, how many pauses it has left; the loops
follow from the cursor. So there are only so many places, a run that ends
passes each at most once (`ends_within_places`), and the strides that
`Machine.run` takes are enough: it is `none` for the runs that never end and
for no others (`Machine.run_eq_some_iff`).
-/
import Mathlib.Data.Fintype.BigOperators
import TapeMachine.Proofs.LoopStack

namespace TapeMachine

open Run Program

variable {s : Setup} {p : Program} {i a b n : Nat} {m m' m₀ : Machine} {r r' : Run}

/-- After how many pauses the observer breaks a run off; 0 if it never does. -/
def Setup.limit (s : Setup) : Nat :=
  match s.pause with
  | .observe (some n) => n
  | _ => 0

/-- The limit where there are pauses at all. -/
def Setup.patience (s : Setup) : Nat := if s.debug then s.limit else 0

theorem Setup.patience_le : s.patience ≤ s.limit := by
  unfold patience
  split
  · exact Nat.le_refl _
  · exact Nat.zero_le _

/-- Machines that go the same way, whatever they have done before. -/
structure Machine.Alike (s : Setup) (m m' : Machine) : Prop where
  tape : m.tape = m'.tape
  loops : m.loops = m'.loops
  unread : m.unread = m'.unread
  pauses : min m.pauses s.patience = min m'.pauses s.patience

theorem Machine.Alike.obey_eq_error {c : Plain} {f : Fault} (h : m.Alike s m') (ho : m.obey s c = .error f) :
    m'.obey s c = .error f := by
  rw [obey_eq] at ho ⊢
  rw [← h.tape, ← h.unread]
  cases hd : (start m.tape m.unread).obey s c with
  | error g => rw [hd] at ho; cases ho; rfl
  | ok d => rw [hd] at ho; cases ho

theorem Machine.Alike.obey_eq_ok {c : Plain} {m₁ : Machine} (h : m.Alike s m') (ho : m.obey s c = .ok m₁) :
    ∃ m₂, m'.obey s c = .ok m₂ ∧ m₁.Alike s m₂ := by
  rw [obey_eq] at ho ⊢
  rw [← h.tape, ← h.unread]
  cases hd : (start m.tape m.unread).obey s c with
  | error g => rw [hd] at ho; cases ho
  | ok d =>
    rw [hd] at ho
    cases ho
    exact ⟨m'.after d, rfl, rfl, h.loops, rfl, h.pauses⟩

theorem Machine.Alike.pause (hd : s.debug = true) (h : m.Alike s m') :
    (m.pause s).1 = (m'.pause s).1 ∧ (m.pause s).2.Alike s (m'.pause s).2 := by
  obtain ⟨ht, hl, hu, hp⟩ := h
  cases hs : s.pause with
  | prompt =>
    simp only [Machine.pause, hs]
    exact ⟨trivial, ht, hl, congrArg List.tail hu, hp⟩
  | silent =>
    simp only [Machine.pause, hs]
    exact ⟨trivial, ht, hl, hu, hp⟩
  | observe limit =>
    cases limit with
    | none =>
      simp only [Machine.pause, hs]
      exact ⟨trivial, ht, hl, hu, hp⟩
    | some limit =>
      have hlim : s.patience = limit := by simp [Setup.patience, Setup.limit, hd, hs]
      rw [hlim] at hp
      have hiff : m.pauses + 1 = limit ↔ m'.pauses + 1 = limit := by omega
      simp only [Machine.pause, hs]
      by_cases hq : (m.note (.observed m.snapshot)).pauses + 1 = limit
      · rw [if_pos hq, if_pos (c := (m'.note (.observed m'.snapshot)).pauses + 1 = limit) (hiff.1 hq)]
        exact ⟨rfl, ht, hl, hu, rfl⟩
      · rw [if_neg hq, if_neg (c := (m'.note (.observed m'.snapshot)).pauses + 1 = limit) (hiff.not.1 hq)]
        refine ⟨rfl, ht, hl, hu, ?_⟩
        rw [hlim]
        show min (m.pauses + 1) limit = min (m'.pauses + 1) limit
        omega

/-- Alike machines go on alike. -/
theorem Dispatch.alike_ok {c : Char} {i j : Nat} {m₁ : Machine} (h : m.Alike s m')
    (hd : Dispatch s p i m c (.ok (j, m₁))) : ∃ m₂, Dispatch s p i m' c (.ok (j, m₂)) ∧ m₁.Alike s m₂ := by
  cases hd with
  | plain ho =>
    obtain ⟨m₂, ho', h'⟩ := h.obey_eq_ok ho
    exact ⟨m₂, .plain ho', h'⟩
  | enter hz => exact ⟨_, .enter (h.tape ▸ hz), h.tape, congrArg (i :: ·) h.loops, h.unread, h.pauses⟩
  | skip hz hp => exact ⟨_, .skip (h.tape ▸ hz) hp, h.tape, h.loops, h.unread, h.pauses⟩
  | leave hz => exact ⟨_, .leave (h.tape ▸ hz), h.tape, congrArg List.tail h.loops, h.unread, h.pauses⟩
  | back hz hl => exact ⟨_, .back (h.tape ▸ hz) (h.loops ▸ hl), h.tape, h.loops, h.unread, h.pauses⟩

theorem Dispatch.alike_error {c : Char} {i : Nat} {f : Fault} (h : m.Alike s m')
    (hd : Dispatch s p i m c (.error f)) : Dispatch s p i m' c (.error f) := by
  cases hd with
  | fault ho => exact .fault (h.obey_eq_error ho)
  | unclosed hz hp => exact .unclosed (h.tape ▸ hz) hp
  | unopened hz hl => exact .unopened (h.tape ▸ hz) (h.loops ▸ hl)

namespace Run

inductive Alike (s : Setup) : Run → Run → Prop
  | going {i : Nat} {m m' : Machine} : m.Alike s m' → Alike s (.going i m) (.going i m')
  | ended {f : Option Fault} {m m' : Machine} : Alike s (.ended f m) (.ended f m')

theorem Alike.afterStep {c : Char} {j : Nat} (h : m.Alike s m') :
    (afterStep s p c j m).Alike s (afterStep s p c j m') := by
  unfold Run.afterStep
  cases hd : s.debug with
  | false => exact .going h
  | true =>
    rw [if_pos rfl, if_pos rfl]
    cases p[j]? with
    | none => exact .going h
    | some d =>
      have hn : (m.note (.step c d (m.tape.report s.view))).Alike s (m'.note (.step c d (m'.tape.report s.view))) :=
        ⟨h.tape, h.loops, h.unread, h.pauses⟩
      obtain ⟨he, hp⟩ := hn.pause hd
      dsimp only
      generalize (m.note _).pause s = x at he hp ⊢
      generalize (m'.note _).pause s = y at he hp ⊢
      obtain ⟨f, n⟩ := x
      obtain ⟨g, n'⟩ := y
      cases he
      cases f with
      | none => exact .going hp
      | some f => exact .ended

theorem Alike.step (h : r.Alike s r') : (r.step s p).Alike s (r'.step s p) := by
  cases h with
  | ended => exact .ended
  | @going i m m' h =>
    rcases step_cases (s := s) (p := p) (i := i) (m := m) with ⟨hc, he⟩ | ⟨c, e, hc, hd, he⟩
    · rw [he, step_past hc]
      exact .ended
    · rw [he]
      cases e with
      | error f =>
        rw [(hd.alike_error h).step_eq hc]
        exact .ended
      | ok e =>
        obtain ⟨m₂, hd', h'⟩ := hd.alike_ok h
        rw [hd'.step_eq hc]
        exact .afterStep h'

theorem Alike.steps (h : r.Alike s r') : (steps s p n r).Alike s (steps s p n r') := by
  induction n generalizing r r' with
  | zero => exact h
  | succ n ih => exact ih h.step

/-- A run that has come back to a place it left never ends. -/
theorem steps_ne_ended_of_alike {f : Option Fault} (hab : a < b)
    (ha : ∀ f m, steps s p a r ≠ .ended f m) (h : (steps s p a r).Alike s (steps s p b r)) :
    steps s p n r ≠ .ended f m := by
  -- an end would be as many steps after the first visit as after the second
  induction n using Nat.strongRecOn generalizing f m with
  | ind n ih =>
    intro hn
    by_cases hb : b ≤ n
    · obtain ⟨k, rfl⟩ := Nat.exists_eq_add_of_le hb
      rw [steps_add] at hn
      have hk := Alike.steps (p := p) (n := k) h
      rw [hn] at hk
      cases he : Run.steps s p k (Run.steps s p a r) with
      | going i m' => rw [he] at hk; cases hk
      | ended g m' => exact ih (a + k) (by omega) (by rw [steps_add, he])
    · rw [steps_ended_mono (Nat.le_of_not_le hb) hn] at h
      cases he : Run.steps s p a r with
      | going i m' => rw [he] at h; cases h
      | ended g m' => exact ha g m' he

end Run

/-! ## Counting the places -/

/-- The values on a tape of `n` cells. -/
def Tape.content (n : Nat) (t : Tape) : Fin n → Fin 256 := fun j => (t.cells.getD j 0).toFin

theorem Tape.eq_of_content {t u : Tape} (hn : u.size = t.size) (hh : t.head = u.head)
    (hc : t.content t.size = u.content t.size) : t = u := by
  obtain ⟨cells, head, hlt⟩ := t
  obtain ⟨cells', head', hlt'⟩ := u
  obtain rfl : head = head' := hh
  have : cells = cells' := by
    refine Array.ext hn.symm fun j hj hj' => ?_
    have hv := congrFun hc ⟨j, hj⟩
    simp only [content, Array.getD, hj, hj', dif_pos] at hv
    exact UInt8.toFin_inj.1 hv
  subst this
  rfl

/-- How many places there are for a run with something left to do. -/
def Machine.places (s : Setup) (p : Program) (m : Machine) : Nat :=
  p.size * (m.tape.size * (256 ^ m.tape.size * ((m.unread.length + 1) * (s.patience + 1))))

/-- The place of a machine at a cursor, on a tape of `n` cells. -/
def Machine.place (s : Setup) (n i : Nat) (m : Machine) : Nat × Nat × (Fin n → Fin 256) × Nat × Nat :=
  (i, m.tape.head, m.tape.content n, m.unread.length, min m.pauses s.patience)

/-- The place of a run; one that has ended is at none, and any will do. -/
def Run.place (s : Setup) (n : Nat) : Run → Nat × Nat × (Fin n → Fin 256) × Nat × Nat
  | .going i m => m.place s n i
  | .ended _ m => m.place s n 0

/-- Machines that one run can have at the same place go the same way. -/
theorem Machine.Reaches.alike {j : Nat} (h : m₀.Reaches p i m) (h' : m₀.Reaches p j m')
    (he : m.place s m₀.tape.size i = m'.place s m₀.tape.size j) : i = j ∧ m.Alike s m' := by
  simp only [place, Prod.mk.injEq] at he
  obtain ⟨rfl, hh, hc, hu, hp⟩ := he
  refine ⟨rfl, ?_, h.loops.trans h'.loops.symm, ?_, hp⟩
  · rw [← h.size] at hc
    exact Tape.eq_of_content (h'.size.trans h.size.symm) hh hc
  · rw [List.suffix_iff_eq_drop.1 h.unread, List.suffix_iff_eq_drop.1 h'.unread, hu]

/-- The places there are. -/
def Machine.allPlaces (s : Setup) (p : Program) (m : Machine) :
    Finset (Nat × Nat × (Fin m.tape.size → Fin 256) × Nat × Nat) :=
  .range p.size ×ˢ .range m.tape.size ×ˢ .univ ×ˢ .range (m.unread.length + 1) ×ˢ .range (s.patience + 1)

theorem Machine.card_allPlaces : (m.allPlaces s p).card = m.places s p := by
  simp only [allPlaces, places, Finset.card_product, Finset.card_range, Finset.card_univ, Fintype.card_fun,
    Fintype.card_fin]

theorem Machine.Reaches.place_mem (h : m₀.Reaches p i m) (hi : i < p.size) :
    m.place s m₀.tape.size i ∈ m₀.allPlaces s p := by
  have hh : m.tape.head < m₀.tape.size := h.size ▸ m.tape.head_lt
  have hu := h.unread.length_le
  simp only [allPlaces, place, Finset.mem_product, Finset.mem_range, Finset.mem_univ, true_and]
  omega

/-- A run that ends is never twice at one place. -/
theorem Machine.place_ne_of_lt {j : Nat} {m₁ m₂ : Machine} {f : Option Fault} (hab : a < b)
    (h₁ : steps s p a (.going 0 (m.inside [])) = .going i m₁)
    (h₂ : steps s p b (.going 0 (m.inside [])) = .going j m₂)
    (h : steps s p n (.going 0 (m.inside [])) = .ended f m') :
    m₁.place s m.tape.size i ≠ m₂.place s m.tape.size j := by
  intro he
  obtain ⟨rfl, hal⟩ := (reaches_of_steps h₁).alike (reaches_of_steps h₂) he
  refine steps_ne_ended_of_alike hab (fun f m' => by rw [h₁]; exact Run.noConfusion) ?_ h
  rw [h₁, h₂]
  exact .going hal

/-- With two more steps to do, a run stands at a character of the program. -/
theorem Run.going_of_not_ended {k : Nat}
    (h : ∀ a < k, ∀ f m', steps s p a (.going 0 (m.inside [])) ≠ .ended f m') (ha : a + 1 < k) :
    ∃ i m₁, i < p.size ∧ steps s p a (.going 0 (m.inside [])) = .going i m₁ := by
  cases he : steps s p a (.going 0 (m.inside [])) with
  | ended f m₁ => exact absurd he (h a (by omega) f m₁)
  | going i m₁ =>
    refine ⟨i, m₁, ?_, rfl⟩
    apply Nat.lt_of_not_le
    intro hi
    refine h (a + 1) ha none m₁ ?_
    rw [steps_add, he]
    exact step_past (Array.getElem?_eq_none hi)

/-- A run that ends stands at a character no more often than there are places. -/
theorem Machine.le_places {k : Nat} {f : Option Fault} (h : steps s p n (.going 0 (m.inside [])) = .ended f m')
    (hgoing : ∀ a < k, ∃ i m₁, i < p.size ∧ steps s p a (.going 0 (m.inside [])) = .going i m₁) :
    k ≤ m.places s p := by
  have hcard : (Finset.range k).card ≤ (m.allPlaces s p).card := by
    refine Finset.card_le_card_of_injOn
      (fun a => (steps s p a (.going 0 (m.inside []))).place s m.tape.size) ?_ ?_
    · intro a ha
      obtain ⟨i, m₁, hi, he⟩ := hgoing a (Finset.mem_range.1 ha)
      simp only [he]
      exact (reaches_of_steps he).place_mem hi
    · intro a ha b hb heq
      obtain ⟨i, m₁, -, he₁⟩ := hgoing a (Finset.mem_range.1 ha)
      obtain ⟨j, m₂, -, he₂⟩ := hgoing b (Finset.mem_range.1 hb)
      simp only [he₁, he₂] at heq
      rcases Nat.lt_trichotomy a b with hab | hab | hab
      · exact absurd heq (place_ne_of_lt hab he₁ he₂ h)
      · exact hab
      · exact absurd heq.symm (place_ne_of_lt hab he₂ he₁ h)
  rwa [Finset.card_range, card_allPlaces] at hcard

/-- A run that ends does so within one step more than there are places. -/
theorem Machine.ends_within_places {f : Option Fault} (h : steps s p n (.going 0 (m.inside [])) = .ended f m') :
    ∃ k ≤ m.places s p + 1, steps s p k (.going 0 (m.inside [])) = .ended f m' := by
  classical
  have hex : ∃ k f m', steps s p k (.going 0 (m.inside [])) = .ended f m' := ⟨n, f, m', h⟩
  obtain ⟨k, ⟨g, m'', hk⟩, hmin⟩ : ∃ k, (∃ f m', steps s p k (.going 0 (m.inside [])) = .ended f m') ∧
      ∀ a < k, ∀ f m', steps s p a (.going 0 (m.inside [])) ≠ .ended f m' :=
    ⟨Nat.find hex, Nat.find_spec hex, fun a ha f m' he => Nat.find_min hex ha ⟨f, m', he⟩⟩
  have hle : k ≤ n := by
    apply Nat.le_of_not_lt
    exact fun hlt => hmin n hlt f m' h
  have hsame := steps_ended_mono hle hk
  rw [h] at hsame
  cases hsame
  have hplaces : k - 1 ≤ m.places s p := le_places hk fun a ha => going_of_not_ended hmin (by omega)
  exact ⟨k, by omega, hk⟩

/-! ## The strides are enough -/

theorem Machine.strides_eq :
    m.strides s p = p.size + 9 * m.tape.size + m.unread.length + s.limit + m.pauses + 1 := rfl

theorem Machine.places_add_two_le : m.places s p + 2 ≤ 2 ^ m.strides s p := by
  have hn : 1 ≤ m.tape.size := Nat.lt_of_le_of_lt (Nat.zero_le _) m.tape.head_lt
  have hs := s.patience_le
  have hplaces : m.places s p ≤ 2 ^ (p.size + (m.tape.size + (8 * m.tape.size + (m.unread.length + s.patience)))) := by
    simp only [places, Nat.pow_add, Nat.pow_mul]
    gcongr
    · exact Nat.le_of_lt Nat.lt_two_pow_self
    · exact Nat.le_of_lt Nat.lt_two_pow_self
    · exact Nat.lt_two_pow_self
    · exact Nat.lt_two_pow_self
  have hpow : 2 ^ (p.size + (m.tape.size + (8 * m.tape.size + (m.unread.length + s.patience))) + 1) ≤
      2 ^ m.strides s p := by
    rw [strides_eq]
    exact Nat.pow_le_pow_right (by decide) (by omega)
  have htwo : 2 ^ 1 ≤ 2 ^ (p.size + (m.tape.size + (8 * m.tape.size + (m.unread.length + s.patience)))) :=
    Nat.pow_le_pow_right (by decide) (by omega)
  rw [Nat.pow_succ] at hpow
  omega

/-- What steps find, a run finds. -/
theorem Machine.run_eq_some_iff {e : Ending} :
    m.run s p = some e ↔ ∃ n, steps s p n (.going 0 (m.inside [])) = .ended e.fault e.machine := by
  constructor
  · exact exists_steps_of_run
  · intro h
    obtain ⟨n, hn⟩ := h
    obtain ⟨k, hk, he⟩ := ends_within_places hn
    have hle := places_add_two_le (s := s) (p := p) (m := m)
    refine finish_eq_some_iff.2 ⟨k, ?_, he, ?_⟩
    · simp only [Nat.pow_zero, Nat.zero_add]
      omega
    · exact Nat.succ_pos _

/-- A run can be watched from any place it comes by. -/
theorem Machine.run_eq_some_iff_of_steps {e : Ending} (h : steps s p a (.going 0 (m.inside [])) = .going i m') :
    m.run s p = some e ↔ ∃ n, steps s p n (.going i m') = .ended e.fault e.machine := by
  rw [run_eq_some_iff]
  constructor
  · intro he
    obtain ⟨n, hn⟩ := he
    have hle : a ≤ n := by
      apply Nat.le_of_not_le
      intro hna
      rw [steps_ended_mono hna hn] at h
      cases h
    obtain ⟨k, rfl⟩ := Nat.exists_eq_add_of_le hle
    rw [steps_add, h] at hn
    exact ⟨k, hn⟩
  · intro he
    obtain ⟨n, hn⟩ := he
    exact ⟨a + n, by rw [steps_add, h, hn]⟩

theorem Machine.run_eq_none_iff :
    m.run s p = none ↔ ∀ n f m', steps s p n (.going 0 (m.inside [])) ≠ .ended f m' := by
  rw [Option.eq_none_iff_forall_ne_some]
  constructor
  · intro h n f m' he
    exact h ⟨f, m'⟩ (run_eq_some_iff.2 ⟨n, he⟩)
  · intro h e he
    obtain ⟨f, m'⟩ := e
    obtain ⟨n, hn⟩ := run_eq_some_iff.1 he
    exact h n f m' hn

/-- A run that never ends stands somewhere after any number of steps. -/
theorem Machine.run_eq_none_iff_going :
    m.run s p = none ↔ ∀ n, ∃ i m', steps s p n (.going 0 (m.inside [])) = .going i m' := by
  rw [run_eq_none_iff]
  refine forall_congr' fun n => ?_
  cases steps s p n (.going 0 (m.inside [])) with
  | going i m' => simp
  | ended f m' => simp

end TapeMachine
