/-
The two ways in which brackets find each other. A `[` counts forward to the
end of its loop (`PairedByCount`), a `]` takes the innermost of the loops that
are open (`PairedByStack`). The one forgets which loops it has passed and the
other passes over a `]` too many, but on any text they pair alike
(`pairings_agree`): a loop is open from its `[` up to its partner, or to the
end of the text if it has none (`mem_openLoops_iff`).
-/
import Mathlib.Logic.Relator
import TapeMachine.Proofs.Closing
import TapeMachine.Proofs.LoopStack

namespace TapeMachine
namespace Program

variable {p : Program} {i j k l : Nat}

/-- The search that a `[` at `i` begins finds the end of its loop at `j`. -/
def PairedByCount (p : Program) (i j : Nat) : Prop := p[i]? = some '[' ∧ p.findClose (i + 1) = .ok j

/-- A scan that keeps the open loops on a stack pops `i` at the `]` at `j`. -/
def PairedByStack (p : Program) (i j : Nat) : Prop := p[j]? = some ']' ∧ (p.openLoops j).head? = some i

/-! ## When a loop is open -/

/-- After one more character the loop that begins there is open, and of those
that were open before, all but the one that closes there. -/
theorem mem_openLoops_succ_iff :
    k ∈ p.openLoops (i + 1) ↔ k = i ∧ p[i]? = some '[' ∨ k ∈ p.openLoops i ∧ ¬ p.Partners k i := by
  by_cases hc : p[i]? = some ']'
  · rw [openLoops_leave hc, hc]
    cases ho : p.openLoops i with
    | nil => simp
    | cons x l =>
      have hx : p.Partners x i := ((openLoops_eq_cons_iff hc).1 ho).1
      have hiff : p.Partners k i ↔ k = x := by
        refine ⟨fun hp => ?_, fun h => h ▸ hx⟩
        exact List.head_eq_of_cons_eq (hp.openLoops_eq.symm.trans ho)
      -- the innermost loop is on the stack once only
      have hlt : k ∈ l → k < x := (List.pairwise_cons.1 (ho ▸ openLoops_pairwise)).1 k
      rw [hiff, List.tail_cons, List.mem_cons]
      constructor
      · intro hk
        have := hlt hk
        exact .inr ⟨.inr hk, by omega⟩
      · rintro (⟨-, h⟩ | ⟨hk | hk, hne⟩)
        · cases h
        · exact absurd hk hne
        · exact hk
  · have hn : ¬ p.Partners k i := fun hp => hc hp.leave
    cases hi : p[i]? with
    | none =>
      rw [openLoops_past hi]
      simp [hn]
    | some c =>
      rcases char_cases c with rfl | rfl | ⟨c, rfl⟩
      · rw [openLoops_enter hi]
        simp [hn]
      · exact absurd hi hc
      · rw [openLoops_plain hi]
        simp [hn, c.2.1]

/-- The loops that are open are those that were entered and have not been closed yet. -/
theorem mem_openLoops_iff : k ∈ p.openLoops i ↔ p[k]? = some '[' ∧ k < i ∧ ∀ j < i, ¬ p.Partners k j := by
  induction i with
  | zero => simp [openLoops]
  | succ i ih =>
    rw [mem_openLoops_succ_iff, ih]
    constructor
    · rintro (⟨rfl, hc⟩ | ⟨⟨hc, hlt, hn⟩, hp⟩)
      · refine ⟨hc, Nat.lt_succ_self k, fun j hj hp => ?_⟩
        have := hp.lt
        omega
      · exact ⟨hc, Nat.lt_succ_of_lt hlt, Nat.forall_lt_succ_right.2 ⟨hn, hp⟩⟩
    · rintro ⟨hc, hlt, hn⟩
      obtain ⟨hn, hp⟩ := Nat.forall_lt_succ_right.1 hn
      rcases Nat.lt_succ_iff_lt_or_eq.1 hlt with hlt | rfl
      · exact .inr ⟨⟨hc, hlt, hn⟩, hp⟩
      · exact .inl ⟨rfl, hc⟩

/-- The loops open at the end are those that never close. -/
theorem mem_openLoops_size_iff : k ∈ p.openLoops p.size ↔ p[k]? = some '[' ∧ ¬ ∃ j, p.Partners k j := by
  rw [mem_openLoops_iff]
  constructor
  · rintro ⟨hc, -, hn⟩
    exact ⟨hc, fun ⟨j, hp⟩ => hn j (lt_size hp.leave) hp⟩
  · rintro ⟨hc, hn⟩
    exact ⟨hc, lt_size hc, fun j _ hp => hn ⟨j, hp⟩⟩

/-! ## Partners are paired -/

theorem Partners.left_unique (h : p.Partners i j) (h' : p.Partners k j) : i = k :=
  List.head_eq_of_cons_eq (h.openLoops_eq.symm.trans h'.openLoops_eq)

theorem Partners.right_unique (h : p.Partners i j) (h' : p.Partners i l) : j = l :=
  Int.ofNat_inj.1 (Option.some.inj (h.close?.symm.trans h'.close?))

/-- A loop that begins inside another one closes inside it. -/
theorem Partners.nested_or_disjoint (h : p.Partners i j) (h' : p.Partners k l) (hik : i < k) : l < j ∨ j < k := by
  by_contra hcross
  rw [not_or, Nat.not_lt, Nat.not_lt] at hcross
  have hkj : k ≠ j := fun he => by cases (he ▸ h'.enter).symm.trans h.leave
  have hlj : l ≠ j := fun he => Nat.ne_of_lt hik (h.left_unique (he ▸ h'))
  -- the inner loop would be open where the outer one closes, so it would have been entered before it
  have hopen : k ∈ p.openLoops j := by
    refine mem_openLoops_iff.2 ⟨h'.enter, by omega, fun x hx hp => ?_⟩
    have := h'.right_unique hp
    omega
  rw [h.openLoops_eq] at hopen
  rcases List.mem_cons.1 hopen with he | hk
  · omega
  · have := (enter_of_mem_openLoops hk).1
    omega

theorem pairedByCount_iff : p.PairedByCount i j ↔ p.Partners i j := by
  constructor
  · rintro ⟨hc, hj⟩
    obtain ⟨x, hx, hp⟩ := (close?_eq_some_iff hc).1 ((findClose_eq_ok_iff (by omega)).1 hj)
    rwa [Int.ofNat_inj.1 hx]
  · intro hp
    exact ⟨hp.enter, (findClose_eq_ok_iff (by omega)).2 hp.close?⟩

theorem pairedByStack_iff : p.PairedByStack i j ↔ p.Partners i j := by
  constructor
  · rintro ⟨hc, hi⟩
    obtain ⟨rest, ho⟩ := List.head?_eq_some_iff.1 hi
    exact ((openLoops_eq_cons_iff hc).1 ho).1
  · intro hp
    exact ⟨hp.leave, by rw [hp.openLoops_eq, List.head?_cons]⟩

/-- The search behind a `[` fails exactly if the loop never closes. -/
theorem findClose_eq_error_iff {e : Refusal} (hc : p[i]? = some '[') :
    p.findClose (i + 1) = .error e ↔ (¬ ∃ j, p.Partners i j) ∧ e = .fault (.unclosed i) := by
  rw [findClose_eq (by omega), ← close?_eq_none_iff hc, Int.add_sub_cancel]
  cases p.close? (i + 1) <;> simp [eq_comm]

/-- The search of a `[` and the stack of a `]` pair the brackets alike: where the
one finds `j` from behind `i`, the other pops `i` at `j`, and so does every run that
comes to `j`. Each pair is a `[` and a later `]`, no bracket is in two pairs, and two
pairs lie one inside the other or one behind the other. The search fails at those
`[`s that are still on the stack at the end. -/
theorem pairings_agree (p : Program) :
    (∀ i j : Nat, p[i]? = some '[' → p[j]? = some ']' →
      (p.findClose (i + 1) = .ok j ↔ (p.openLoops j).head? = some i)) ∧
    (∀ i j, p.PairedByCount i j ↔ p.PairedByStack i j) ∧
    (∀ s m n j m', Run.steps s p n (.going 0 (Machine.inside m [])) = .going j m' → p[j]? = some ']' →
      ∀ i, m'.loops.head? = some i ↔ p.PairedByCount i j) ∧
    (∀ i j, p.PairedByCount i j → i < j ∧ p[i]? = some '[' ∧ p[j]? = some ']') ∧
    Relator.BiUnique p.PairedByCount ∧
    (∀ i j k l, p.PairedByCount i j → p.PairedByCount k l → i < k → l < j ∨ j < k) ∧
    (∀ (i : Nat) e, p[i]? = some '[' →
      (p.findClose (i + 1) = .error e ↔ i ∈ p.openLoops p.size ∧ e = .fault (.unclosed i))) := by
  have hagree (i j : Nat) : p.PairedByCount i j ↔ p.PairedByStack i j := pairedByCount_iff.trans pairedByStack_iff.symm
  refine ⟨fun i j hi hj => ?_, hagree, fun s m n j m' h hj i => ?_, fun i j h => ?_, ⟨?_, ?_⟩, ?_, fun i e hi => ?_⟩
  · have := hagree i j
    simpa only [PairedByCount, PairedByStack, hi, hj, true_and] using this
  · rw [(Run.reaches_of_steps h).loops, hagree, PairedByStack, and_iff_right hj]
  · have hp := pairedByCount_iff.1 h
    exact ⟨hp.lt, hp.enter, hp.leave⟩
  · exact fun i j k h h' => (pairedByCount_iff.1 h).left_unique (pairedByCount_iff.1 h')
  · exact fun i j l h h' => (pairedByCount_iff.1 h).right_unique (pairedByCount_iff.1 h')
  · exact fun i j k l h h' => (pairedByCount_iff.1 h).nested_or_disjoint (pairedByCount_iff.1 h')
  · rw [findClose_eq_error_iff hi, mem_openLoops_size_iff, and_iff_right hi]

/-- The first `]` of `][[]` is passed over, and its first `[` never closes. -/
example : openLoops #[']', '[', '[', ']'] 4 = [1] := rfl

end Program
end TapeMachine
