/-
A program and what is left of it when some characters are taken out. The
`k`-th of the characters that stay is the one at position `k` of the rest
(`Program.Nth`). If brackets stay, then loops do: the same are open, and the
same positions are partners (`partners_only`, `exists_partners_of_only`).
-/
import Mathlib.Data.List.Forall2
import TapeMachine.Proofs.Brackets

namespace TapeMachine
namespace Program

variable {keep : Char → Bool} {p : Program} {c : Char} {i j k : Nat}

/-- The program without the characters that are not to be kept. -/
def only (keep : Char → Bool) (p : Program) : Program := (p.toList.filter keep).toArray

/-- How many of the characters to keep stand before position `i`. -/
def rank (keep : Char → Bool) (p : Program) (i : Nat) : Nat := (p.toList.take i).countP keep

/-- Position `i` is that of the `k`-th character to keep, counted from 0. -/
def Nth (keep : Char → Bool) (p : Program) (i k : Nat) : Prop :=
  (∃ c, p[i]? = some c ∧ keep c = true) ∧ p.rank keep i = k

/-! ## Positions -/

theorem rank_succ (h : p[i]? = some c) : p.rank keep (i + 1) = p.rank keep i + if keep c then 1 else 0 := by
  rw [← Array.getElem?_toList] at h
  rw [rank, rank, List.take_add_one, h, List.countP_append, Option.toList_some, List.countP_singleton]

theorem rank_succ_of_keep (h : p[i]? = some c) (hk : keep c = true) :
    p.rank keep (i + 1) = p.rank keep i + 1 := by
  rw [rank_succ h, if_pos hk]

theorem rank_succ_of_drop (h : p[i]? = some c) (hk : keep c = false) : p.rank keep (i + 1) = p.rank keep i := by
  rw [rank_succ h, hk]
  rfl

theorem rank_succ_of_past (h : p[i]? = none) : p.rank keep (i + 1) = p.rank keep i := by
  rw [← Array.getElem?_toList] at h
  rw [rank, rank, List.take_add_one, h, Option.toList_none, List.append_nil]

theorem rank_mono (h : i ≤ j) : p.rank keep i ≤ p.rank keep j :=
  (List.take_sublist_take_left h).countP_le

/-- A character that stays is at its rank. -/
theorem getElem?_only_rank (h : p[i]? = some c) (hk : keep c = true) : (p.only keep)[p.rank keep i]? = some c := by
  rw [← Array.getElem?_toList] at h
  obtain ⟨hi, rfl⟩ := List.getElem?_eq_some_iff.1 h
  have hsplit : p.toList = p.toList.take i ++ p.toList[i] :: p.toList.drop (i + 1) := by
    rw [← List.drop_eq_getElem_cons hi, List.take_append_drop]
  rw [only, rank, List.getElem?_toArray]
  conv => lhs; lhs; rw [hsplit]
  rw [List.filter_append, List.countP_eq_length_filter, List.getElem?_append_right (Nat.le_refl _), Nat.sub_self,
    List.filter_cons_of_pos hk]
  rfl

theorem getElem?_only_rank_of_past (h : p[i]? = none) : (p.only keep)[p.rank keep i]? = none := by
  rw [← Array.getElem?_toList, List.getElem?_eq_none_iff] at h
  rw [only, rank, List.take_of_length_le h, List.countP_eq_length_filter, List.getElem?_toArray]
  exact List.getElem?_eq_none (Nat.le_refl _)

theorem exists_nth_of_lt_rank (h : k < p.rank keep j) : ∃ i, p.Nth keep i k := by
  induction j with
  | zero => exact absurd h (Nat.not_lt_zero k)
  | succ j ih =>
    by_cases hj : k < p.rank keep j
    · exact ih hj
    · cases hc : p[j]? with
      | none => exact absurd (rank_succ_of_past hc ▸ h) hj
      | some c =>
        cases hk : keep c with
        | false => exact absurd (rank_succ_of_drop hc hk ▸ h) hj
        | true =>
          rw [rank_succ_of_keep hc hk] at h
          exact ⟨j, ⟨c, hc, hk⟩, by omega⟩

/-- What is left stood somewhere. -/
theorem exists_nth (h : (p.only keep)[k]? = some c) : ∃ i, p[i]? = some c ∧ p.Nth keep i k := by
  have hlt : k < p.rank keep p.size := by
    have hk := (Array.getElem?_eq_some_iff.1 h).1
    rwa [rank, List.take_of_length_le (Nat.le_of_eq Array.length_toList), List.countP_eq_length_filter]
  obtain ⟨i, ⟨d, hd, hkeep⟩, rfl⟩ := exists_nth_of_lt_rank hlt
  rw [getElem?_only_rank hd hkeep] at h
  cases h
  exact ⟨i, hd, ⟨c, hd, hkeep⟩, rfl⟩

theorem Nth.inj (hi : p.Nth keep i k) (hj : p.Nth keep j k) : i = j := by
  obtain ⟨⟨c, hc, hkc⟩, hi⟩ := hi
  obtain ⟨⟨d, hd, hkd⟩, hj⟩ := hj
  have hic := rank_succ_of_keep hc hkc
  have hjd := rank_succ_of_keep hd hkd
  rcases Nat.lt_trichotomy i j with h | h | h
  · have : p.rank keep (i + 1) ≤ p.rank keep j := rank_mono h
    omega
  · exact h
  · have : p.rank keep (j + 1) ≤ p.rank keep i := rank_mono h
    omega

/-! ## Loops -/

theorem forall₂_tail {α β : Type} {R : α → β → Prop} {l : List α} {l' : List β} (h : List.Forall₂ R l l') :
    List.Forall₂ R l.tail l'.tail := by
  cases h with
  | nil => exact .nil
  | cons _ h => exact h

/-- The loops that are open are the same, by the positions of their `[`. -/
theorem openLoops_only (he : keep '[' = true) (hl : keep ']' = true) :
    List.Forall₂ (p.Nth keep) (p.openLoops i) ((p.only keep).openLoops (p.rank keep i)) := by
  induction i with
  | zero => exact .nil
  | succ i ih =>
    cases hc : p[i]? with
    | none =>
      rw [openLoops_past hc, rank_succ_of_past hc]
      exact ih
    | some c =>
      rcases char_cases c with rfl | rfl | ⟨c, rfl⟩
      · rw [openLoops_enter hc, rank_succ_of_keep hc he, openLoops_enter (getElem?_only_rank hc he)]
        exact .cons ⟨⟨_, hc, he⟩, rfl⟩ ih
      · rw [openLoops_leave hc, rank_succ_of_keep hc hl, openLoops_leave (getElem?_only_rank hc hl)]
        exact forall₂_tail ih
      · rw [openLoops_plain hc]
        cases hk : keep c.1 with
        | false =>
          rw [rank_succ_of_drop hc hk]
          exact ih
        | true =>
          rw [rank_succ_of_keep hc hk, openLoops_plain (getElem?_only_rank hc hk)]
          exact ih

theorem partners_only (he : keep '[' = true) (hl : keep ']' = true) (h : p.Partners k i) :
    (p.only keep).Partners (p.rank keep k) (p.rank keep i) := by
  have hopen := openLoops_only (p := p) (i := i) he hl
  rw [h.openLoops_eq] at hopen
  generalize ho : (p.only keep).openLoops (p.rank keep i) = l at hopen
  cases hopen with
  | cons hk _ =>
    rw [hk.2]
    exact ((openLoops_eq_cons_iff (getElem?_only_rank h.leave hl)).1 ho).1

theorem exists_partners_of_only (he : keep '[' = true) (hl : keep ']' = true) (hk : p[k]? = some '[')
    (h : (p.only keep).Partners (p.rank keep k) j) : ∃ i, p.Partners k i := by
  obtain ⟨i, hi, hn⟩ := exists_nth h.leave
  have hopen := openLoops_only (p := p) (i := i) he hl
  rw [hn.2, h.openLoops_eq] at hopen
  generalize ho : p.openLoops i = l at hopen
  cases hopen with
  | cons hx _ =>
    obtain rfl := hx.inj ⟨⟨_, hk, he⟩, rfl⟩
    exact ⟨i, ((openLoops_eq_cons_iff hi).1 ho).1⟩

end Program
end TapeMachine
