/-
The search for the end of a loop, from any place. It goes along the positions
from there to the end of the text, of which the negative ones are read from
behind (`between`), and stops at the first at which one more loop has closed
than has begun since (`Closes`, `closeFrom_spec`). What it has passed is
balanced, and a search from a negative position is a search through a text
that has the end of the program before it (`findClose_exact`).
-/
import Mathlib.Order.Bounds.Basic
import TapeMachine.Proofs.Brackets
import TapeMachine.Session

namespace TapeMachine
namespace Program

variable {p q : Program} {d k n : Nat} {e i j start stop : Int} {c : Option Char} {t : List Char}

/-- The characters at the positions from `start` up to and excluding `stop`. -/
def between (p : Program) (start stop : Int) : List Char :=
  (List.range (stop - start).toNat).filterMap fun k : Nat => p.charAt? (start + k)

/-- From `start` to the character at `j`, `d` more loops close than begin. -/
def Closes (p : Program) (d : Nat) (start j : Int) : Prop :=
  start ≤ j ∧ j < p.size ∧ (p.between start (j + 1)).count ']' = (p.between start (j + 1)).count '[' + d

/-- The program behind a copy of its last characters, those from the negative
position `start` on. -/
def wrapped (p : Program) (start : Int) : Program := p.extract (p.size + start).toNat ++ p

/-! ## Texts -/

@[simp] theorem between_self : p.between start start = [] := by simp [between]

theorem between_of_lt (h : start < stop) :
    p.between start stop = (p.charAt? start).toList ++ p.between (start + 1) stop := by
  obtain ⟨n, hn⟩ : ∃ n, (stop - start).toNat = n + 1 := ⟨(stop - start).toNat - 1, by omega⟩
  have hn' : (stop - (start + 1)).toNat = n := by omega
  have hshift : (fun k : Nat => p.charAt? (start + (k + 1 : Nat))) = fun k : Nat => p.charAt? (start + 1 + k) := by
    funext k
    congr 1
    omega
  rw [between, between, hn, hn', List.range_succ_eq_map, List.filterMap_cons, List.filterMap_map, Int.natCast_zero,
    Int.add_zero, Function.comp_def, hshift]
  cases p.charAt? start <;> rfl

/-- The depth of the search counts the loops that are left to close. -/
theorem count_depthAfter (hd : d ≠ 0) :
    (c.toList ++ t).count ']' = (c.toList ++ t).count '[' + d ↔ t.count ']' = t.count '[' + depthAfter d c := by
  unfold depthAfter
  split
  · rw [Option.toList_some, List.singleton_append, List.count_cons_self, List.count_cons_of_ne (by decide)]
    omega
  · rw [Option.toList_some, List.singleton_append, List.count_cons_self, List.count_cons_of_ne (by decide)]
    omega
  · next henter hleave => cases c <;> simp_all

theorem eq_zero_of_depthAfter (h : depthAfter (d + 1) c = 0) : d = 0 := by
  unfold depthAfter at h
  split at h <;> omega

/-- Below its outermost loop the search is as deep as the text. -/
theorem nesting_depthAfter (h : depthAfter (d + 1) c = n + 1) : nesting d (c.toList ++ t) = nesting n t := by
  unfold depthAfter at h
  split at h
  · cases h
    exact nesting_enter
  · cases h
    exact nesting_leave_succ
  · next henter hleave =>
    cases h
    cases c with
    | none => rfl
    | some c =>
      rcases char_cases c with rfl | rfl | ⟨c, rfl⟩
      · exact absurd rfl henter
      · exact absurd rfl hleave
      · exact nesting_plain

/-! ## The search -/

theorem closes_self_iff (hd : d ≠ 0) : p.Closes d j j ↔ j < p.size ∧ depthAfter d (p.charAt? j) = 0 := by
  rw [Closes, between_of_lt (Int.lt_succ j), count_depthAfter hd, between_self]
  simp [eq_comm]

/-- A search that goes on looks for the same end. -/
theorem closes_iff (hd : d ≠ 0) (h : depthAfter d (p.charAt? j) ≠ 0) :
    p.Closes d j i ↔ p.Closes (depthAfter d (p.charAt? j)) (j + 1) i := by
  by_cases hi : j < i
  · rw [Closes, Closes, between_of_lt (by omega : j < i + 1), count_depthAfter hd]
    omega
  · constructor
    · intro hc
      obtain rfl : i = j := by
        have := hc.1
        omega
      exact absurd ((closes_self_iff hd).1 hc).2 h
    · intro hc
      have := hc.1
      omega

/-- The search finds the first position at which enough loops have closed, if
there is one. -/
theorem closeFrom_spec (hd : d ≠ 0) (hn : n = (p.size - j).toNat) :
    match p.closeFrom d j n with
    | some e => IsLeast {x | p.Closes d j x} e
    | none => ¬ ∃ x, p.Closes d j x := by
  induction n generalizing d j with
  | zero =>
    intro hx
    obtain ⟨x, hjx, hx, -⟩ := hx
    omega
  | succ n ih =>
    rw [closeFrom]
    by_cases h : depthAfter d (p.charAt? j) = 0
    · simp only [h, if_true]
      exact ⟨(closes_self_iff hd).2 ⟨by omega, h⟩, fun x hx => hx.1⟩
    · simp only [h, if_false]
      have hset : {x | p.Closes d j x} = {x | p.Closes (depthAfter d (p.charAt? j)) (j + 1) x} :=
        Set.ext fun x => closes_iff hd h
      have hex : (∃ x, p.Closes d j x) ↔ ∃ x, p.Closes (depthAfter d (p.charAt? j)) (j + 1) x :=
        exists_congr fun x => closes_iff hd h
      rw [hset, hex]
      exact ih h (by omega)

/-- What the search passes leaves every loop that it enters. -/
theorem nesting_of_closeFrom (h : p.closeFrom (d + 1) j n = some e) :
    j ≤ e ∧ nesting d (p.between j e) = some 0 := by
  induction n generalizing d j with
  | zero => cases h
  | succ n ih =>
    rw [closeFrom] at h
    cases hd : depthAfter (d + 1) (p.charAt? j) with
    | zero =>
      simp only [hd, if_true, Option.some.injEq] at h
      subst h
      rw [between_self, nesting_nil, eq_zero_of_depthAfter hd]
      exact ⟨Int.le_refl j, rfl⟩
    | succ d' =>
      simp only [hd, Nat.succ_ne_zero, if_false] at h
      obtain ⟨hle, hnesting⟩ := ih h
      refine ⟨by omega, ?_⟩
      rw [between_of_lt (by omega), nesting_depthAfter hd, hnesting]

/-- The search goes the same in another text that has the same characters from
another place on. -/
theorem closeFrom_map (h : ∀ k : Nat, p.charAt? (i + k) = q.charAt? (j + k)) :
    p.closeFrom d i n = (q.closeFrom d j n).map (i - j + ·) := by
  induction n generalizing d i j with
  | zero => rfl
  | succ n ih =>
    have hhere : p.charAt? i = q.charAt? j := by simpa using h 0
    have hnext (k : Nat) : p.charAt? (i + 1 + k) = q.charAt? (j + 1 + k) := by
      rw [Int.add_assoc, Int.add_assoc, Int.add_comm 1, ← Int.natCast_succ]
      exact h (k + 1)
    have hoffset : i + 1 - (j + 1) = i - j := by omega
    rw [closeFrom, closeFrom, hhere]
    split
    · rw [Option.map_some, Int.sub_add_cancel]
    · rw [ih hnext, hoffset]

/-! ## Searches from anywhere -/

theorem size_wrapped (h : start < 0) (hstart : -p.size ≤ start) : ((p.wrapped start).size : Int) = p.size - start := by
  simp only [wrapped, Array.size_append, Array.size_extract]
  omega

/-- A negative position is read from behind. -/
theorem charAt?_wrapped (h : start < 0) (hstart : -p.size ≤ start) :
    p.charAt? (start + k) = (p.wrapped start).charAt? (0 + k) := by
  have hlast : (p.extract (p.size + start).toNat).size = (-start).toNat := by
    rw [Array.size_extract]
    omega
  rw [Int.zero_add, charAt?_natCast, wrapped, charAt?]
  by_cases hk : 0 ≤ start + k
  · rw [if_pos hk, Array.getElem?_append_right (by omega), hlast]
    congr 1
    omega
  · rw [if_neg hk, if_pos (by omega), Array.getElem?_append_left (by omega), Array.getElem?_extract,
      if_pos (by omega)]
    congr 1
    omega

theorem close?_wrapped (h : start < 0) (hstart : -p.size ≤ start) :
    p.close? start = ((p.wrapped start).close? 0).map (start + ·) := by
  rw [close?, close?, size_wrapped h hstart, Int.sub_zero, closeFrom_map fun k => charAt?_wrapped h hstart,
    Int.sub_zero]

/-- The search finds the first position at which one more loop has closed than
has begun. -/
theorem close?_spec (p : Program) (start : Int) :
    match p.close? start with
    | some e => IsLeast {x | p.Closes 1 start x} e
    | none => ¬ ∃ x, p.Closes 1 start x :=
  closeFrom_spec (by decide) rfl

theorem close?_eq_some_iff_isLeast : p.close? start = some j ↔ IsLeast {x | p.Closes 1 start x} j := by
  have hspec := close?_spec p start
  cases hc : p.close? start with
  | some e =>
    rw [hc] at hspec
    rw [Option.some.injEq]
    exact ⟨fun h => h ▸ hspec, hspec.unique⟩
  | none =>
    rw [hc] at hspec
    simpa using fun h => hspec ⟨j, h.1⟩

theorem close?_eq_none_iff_not_closes : p.close? start = none ↔ ¬ ∃ x, p.Closes 1 start x := by
  have hspec := close?_spec p start
  cases hc : p.close? start with
  | some e =>
    rw [hc] at hspec
    simpa using ⟨e, hspec.1⟩
  | none =>
    rw [hc] at hspec
    simpa using hspec

theorem findClose_eq (h : -p.size ≤ start) :
    p.findClose start = (p.close? start).elim (.error (.fault (.unclosed (start - 1)))) .ok := by
  rw [findClose, if_neg (by omega)]
  cases p.close? start <;> rfl

theorem findClose_eq_ok_iff (h : -p.size ≤ start) : p.findClose start = .ok j ↔ p.close? start = some j := by
  rw [findClose_eq h]
  cases p.close? start <;> simp

/-- A search that is to begin before the text, its end read from behind, is refused.
Any other finds the first position from its start on where the text read since
has just one `]` more than `[`, and fails with the position before its start if
there is none. From a negative start it goes as it would from the beginning of the
text with its own end before it. What it passes is balanced, so behind a `[` it finds
where the loop closes. -/
theorem findClose_exact :
    (start < -p.size → p.findClose start = .error .outsideText) ∧
    (-p.size ≤ start →
      (p.findClose start = .ok j ↔ IsLeast {x | p.Closes 1 start x} j) ∧
      ((¬ ∃ x, p.Closes 1 start x) → p.findClose start = .error (.fault (.unclosed (start - 1)))) ∧
      (p.size ≤ start → ¬ ∃ x, p.Closes 1 start x) ∧
      (start < 0 → (p.findClose start = .ok (start + e) ↔ (p.wrapped start).findClose 0 = .ok e)) ∧
      (p.findClose start = .ok j → Balanced (p.between start j)) ∧
      (start = k + 1 → p[k]? = some '[' → (p.findClose start = .ok j ↔ ∃ i : Nat, j = i ∧ p.Partners k i))) := by
  refine ⟨fun h => if_pos h, fun h => ⟨?_, ?_, ?_, ?_, ?_, ?_⟩⟩
  · rw [findClose_eq_ok_iff h, close?_eq_some_iff_isLeast]
  · intro hn
    rw [findClose_eq h, close?_eq_none_iff_not_closes.2 hn]
    rfl
  · intro hsize hx
    obtain ⟨x, hle, hlt, -⟩ := hx
    omega
  · intro hneg
    rw [findClose_eq_ok_iff h, close?_wrapped hneg h, findClose_eq_ok_iff (by omega)]
    simp
  · intro hj
    exact (nesting_of_closeFrom ((findClose_eq_ok_iff h).1 hj)).2
  · intro hk henter
    rw [findClose_eq_ok_iff h, hk, close?_eq_some_iff henter]

/-- From the last character of `]][` on, the second `]` is the end. -/
example : Program.findClose #[']', ']', '['] (-1) = .ok 1 := rfl

end Program
end TapeMachine
