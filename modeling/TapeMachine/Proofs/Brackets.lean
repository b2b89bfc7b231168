/-
Where loops stand in a program. `openLoops` reads a program from its
beginning and keeps the loops that are open, `Partners` says of two
positions that the loop entered at the one closes at the other, and `close?`
looks for the end of a loop by counting. The first is what a run keeps on
its stack and the last is how it skips a loop; both find partners
(`openLoops_eq_cons_iff`, `close?_eq_some_iff`).
-/
import TapeMachine.Proofs.Balance

namespace TapeMachine
namespace Program

variable {p : Program}

/-! ## Texts in a program -/

/-- The text stands in the program from position `i` on. -/
def At (p : Program) : Nat → List Char → Prop
  | _, [] => True
  | i, c :: t => p[i]? = some c ∧ p.At (i + 1) t

theorem At.append_iff {t u : List Char} {i : Nat} :
    p.At i (t ++ u) ↔ p.At i t ∧ p.At (i + t.length) u := by
  induction t generalizing i with
  | nil => simp [At]
  | cons c t ih => rw [List.cons_append, At, ih, At, and_assoc, List.length_cons, Nat.add_right_comm,
      Nat.add_assoc]

theorem At.left {t u : List Char} {i : Nat} (h : p.At i (t ++ u)) : p.At i t := (At.append_iff.1 h).1

theorem At.right {t u : List Char} {i : Nat} (h : p.At i (t ++ u)) : p.At (i + t.length) u :=
  (At.append_iff.1 h).2

theorem At.snoc {t : List Char} {c : Char} {i : Nat} (h : p.At i t) (hc : p[i + t.length]? = some c) :
    p.At i (t ++ [c]) :=
  At.append_iff.2 ⟨h, hc, trivial⟩

theorem lt_size {i : Nat} {c : Char} (h : p[i]? = some c) : i < p.size :=
  (Array.getElem?_eq_some_iff.1 h).1

theorem At.length_le {t : List Char} {i : Nat} (h : p.At i t) (hi : i ≤ p.size) : i + t.length ≤ p.size := by
  induction t generalizing i with
  | nil => exact hi
  | cons c t ih =>
    have := ih h.2 (lt_size h.1)
    rw [List.length_cons]
    omega

/-- The whole of a program stands at its beginning. -/
theorem at_toList : p.At 0 p.toList := by
  have h : ∀ (t pre : List Char), p.toList = pre ++ t → p.At pre.length t := by
    intro t
    induction t with
    | nil => exact fun _ _ => trivial
    | cons c t ih =>
      intro pre hp
      refine ⟨by rw [← Array.getElem?_toList, hp, List.getElem?_append_right (Nat.le_refl _)]; simp, ?_⟩
      simpa using ih (pre ++ [c]) (by simp [hp])
  exact h p.toList [] rfl

/-- What stands in a program stands in a longer one. -/
theorem At.append {q : Program} {t : List Char} {i : Nat} (h : p.At i t) : (p ++ q).At i t := by
  induction t generalizing i with
  | nil => trivial
  | cons c t ih => exact ⟨by rw [Array.getElem?_append_left (lt_size h.1), h.1], ih h.2⟩

/-- What stands in a program stands in one it is the end of, so much later. -/
theorem at_append_size_iff {q : Program} {t : List Char} {i : Nat} : (p ++ q).At (p.size + i) t ↔ q.At i t := by
  induction t generalizing i with
  | nil => exact Iff.rfl
  | cons c t ih =>
    rw [At, At, Nat.add_assoc, ih, Array.getElem?_append_right (Nat.le_add_right _ _), Nat.add_sub_cancel_left]

/-- Of two texts at one place the shorter begins the longer. -/
theorem At.isPrefix {t u : List Char} {i : Nat} (ht : p.At i t) (hu : p.At i u) (h : t.length ≤ u.length) :
    t <+: u := by
  induction t generalizing i u with
  | nil => exact List.nil_prefix
  | cons c t ih =>
    cases u with
    | nil => cases h
    | cons d u =>
      obtain rfl : c = d := Option.some.inj (ht.1.symm.trans hu.1)
      exact List.cons_prefix_cons.2 ⟨rfl, ih ht.2 hu.2 (Nat.le_of_succ_le_succ h)⟩

/-! ## Open loops -/

/-- The loops entered among the first `i` characters that do not close there,
by the position of their `[`, innermost first. A `]` closes the innermost
loop that is open, and does nothing if there is none. -/
def openLoops (p : Program) : Nat → List Nat
  | 0 => []
  | i + 1 =>
    match p[i]? with
    | some '[' => i :: p.openLoops i
    | some ']' => (p.openLoops i).tail
    | _ => p.openLoops i

theorem openLoops_enter {i : Nat} (h : p[i]? = some '[') : p.openLoops (i + 1) = i :: p.openLoops i := by
  simp [openLoops, h]

theorem openLoops_leave {i : Nat} (h : p[i]? = some ']') : p.openLoops (i + 1) = (p.openLoops i).tail := by
  simp [openLoops, h]

theorem openLoops_plain {i : Nat} {c : Plain} (h : p[i]? = some c.1) : p.openLoops (i + 1) = p.openLoops i := by
  rw [openLoops, h]
  split
  · next hc => exact absurd (Option.some.inj hc) c.2.1
  · next hc => exact absurd (Option.some.inj hc) c.2.2
  · rfl

theorem openLoops_past {i : Nat} (h : p[i]? = none) : p.openLoops (i + 1) = p.openLoops i := by
  simp [openLoops, h]

/-- One character enters a loop, or leaves one, or changes nothing. -/
theorem openLoops_succ_cases (p : Program) (i : Nat) :
    (p[i]? = some '[' ∧ p.openLoops (i + 1) = i :: p.openLoops i) ∨
    p.openLoops (i + 1) = (p.openLoops i).tail ∨ p.openLoops (i + 1) = p.openLoops i := by
  cases hc : p[i]? with
  | none => exact .inr (.inr (openLoops_past hc))
  | some c =>
    rcases char_cases c with rfl | rfl | ⟨c, rfl⟩
    · exact .inl ⟨rfl, openLoops_enter hc⟩
    · exact .inr (.inl (openLoops_leave hc))
    · exact .inr (.inr (openLoops_plain hc))

theorem enter_of_mem_openLoops {i k : Nat} (h : k ∈ p.openLoops i) : k < i ∧ p[k]? = some '[' := by
  induction i with
  | zero => cases h
  | succ i ih =>
    rcases openLoops_succ_cases p i with ⟨hc, ho⟩ | ho | ho
    · rw [ho, List.mem_cons] at h
      rcases h with rfl | h
      · exact ⟨Nat.lt_succ_self _, hc⟩
      · exact ⟨Nat.lt_succ_of_lt (ih h).1, (ih h).2⟩
    · have h := List.mem_of_mem_tail (ho ▸ h)
      exact ⟨Nat.lt_succ_of_lt (ih h).1, (ih h).2⟩
    · have h := ho ▸ h
      exact ⟨Nat.lt_succ_of_lt (ih h).1, (ih h).2⟩

/-- The innermost loop is the one entered last. -/
theorem openLoops_pairwise {i : Nat} : (p.openLoops i).Pairwise (· > ·) := by
  induction i with
  | zero => exact .nil
  | succ i ih =>
    rcases openLoops_succ_cases p i with ⟨-, ho⟩ | ho | ho
    · rw [ho]
      exact .cons (fun k hk => (enter_of_mem_openLoops hk).1) ih
    · rw [ho]
      exact ih.tail
    · rwa [ho]

/-- The same loops are open before and after a block. -/
theorem openLoops_block {b : Block} {i : Nat} (h : p.At i b.text) :
    p.openLoops (i + b.text.length) = p.openLoops i := by
  induction b generalizing i with
  | done => rfl
  | plain c rest ih =>
    have := ih h.2
    rwa [openLoops_plain h.1, Nat.add_assoc, Nat.add_comm 1] at this
  | loop body rest ihb ihr =>
    obtain ⟨hi, h⟩ := h
    have hl := h.right
    have hr := ihr hl.2
    rw [openLoops_leave hl.1, ihb h.left, openLoops_enter hi, List.tail_cons] at hr
    rw [← hr]
    congr 1
    simp only [Block.text, List.length_cons, List.length_append]
    omega

/-! ## Partners -/

/-- The loop entered at `k` closes at `i`: there is a `[` and a `]` there, and
the text between them is balanced. -/
def Partners (p : Program) (k i : Nat) : Prop :=
  ∃ inner, Balanced inner ∧ p.At k ('[' :: (inner ++ [']'])) ∧ i = k + 1 + inner.length

theorem Partners.enter {k i : Nat} (h : p.Partners k i) : p[k]? = some '[' := by
  obtain ⟨inner, -, hat, -⟩ := h
  exact hat.1

theorem Partners.leave {k i : Nat} (h : p.Partners k i) : p[i]? = some ']' := by
  obtain ⟨inner, -, hat, rfl⟩ := h
  exact hat.2.right.1

theorem Partners.lt {k i : Nat} (h : p.Partners k i) : k < i := by
  obtain ⟨inner, -, -, rfl⟩ := h
  omega

theorem Partners.append {q : Program} {k i : Nat} (h : p.Partners k i) : (p ++ q).Partners k i := by
  obtain ⟨inner, hb, hat, rfl⟩ := h
  exact ⟨inner, hb, hat.append, rfl⟩

theorem partners_append_size_iff {q : Program} {k i : Nat} :
    (p ++ q).Partners (p.size + k) i ↔ ∃ j, i = p.size + j ∧ q.Partners k j := by
  constructor
  · intro h
    obtain ⟨inner, hb, hat, rfl⟩ := h
    exact ⟨k + 1 + inner.length, by omega, inner, hb, at_append_size_iff.1 hat, rfl⟩
  · intro h
    obtain ⟨j, rfl, inner, hb, hat, rfl⟩ := h
    exact ⟨inner, hb, at_append_size_iff.2 hat, by omega⟩

/-- Right before a loop closes it is the innermost one. -/
theorem Partners.openLoops_eq {k i : Nat} (h : p.Partners k i) : p.openLoops i = k :: p.openLoops k := by
  obtain ⟨inner, hb, hat, rfl⟩ := h
  obtain ⟨b, rfl⟩ := balanced_iff.1 hb
  rw [openLoops_block hat.2.left, openLoops_enter hat.1]

theorem Partners.openLoops_succ {k i : Nat} (h : p.Partners k i) : p.openLoops (i + 1) = p.openLoops k := by
  rw [openLoops_leave h.leave, h.openLoops_eq, List.tail_cons]

/-- Since the innermost open loop was entered the text is balanced, and the
loops around it are those that were open at its `[`. -/
theorem exists_of_openLoops_eq_cons {i k : Nat} {l : List Nat} (hi : i ≤ p.size)
    (h : p.openLoops i = k :: l) :
    ∃ inner, Balanced inner ∧ p.At k ('[' :: inner) ∧ i = k + 1 + inner.length ∧ l = p.openLoops k := by
  induction i using Nat.strongRecOn generalizing k l with
  | ind i ih =>
    cases i with
    | zero => cases h
    | succ i =>
      obtain ⟨c, hc⟩ : ∃ c, p[i]? = some c := ⟨_, Array.getElem?_eq_getElem hi⟩
      rcases char_cases c with rfl | rfl | ⟨c, rfl⟩
      · rw [openLoops_enter hc] at h
        cases h
        exact ⟨[], Balanced.nil, ⟨hc, trivial⟩, rfl, rfl⟩
      · -- the loop that closes at `i` is the last part of the text since `k`
        rw [openLoops_leave hc] at h
        cases ho : p.openLoops i with
        | nil => rw [ho] at h; cases h
        | cons k' l' =>
          rw [ho, List.tail_cons] at h
          obtain ⟨last, hb', hat', hi', rfl⟩ := ih i (Nat.lt_succ_self i) (by omega) ho
          obtain ⟨inner, hb, hat, rfl, rfl⟩ := ih k' (by omega) (by omega) h
          refine ⟨inner ++ '[' :: (last ++ [']']), ?_, ?_, ?_, rfl⟩
          · rw [Balanced, hb.nesting_append, nesting_enter, hb'.nesting_append]
            rfl
          · rw [← List.cons_append]
            refine At.append_iff.2 ⟨hat, ?_⟩
            rw [List.length_cons, Nat.add_comm inner.length, ← Nat.add_assoc]
            exact ⟨hat'.1, hat'.2.snoc (hi' ▸ hc)⟩
          · simp only [List.length_append, List.length_cons, List.length_nil]
            omega
      · rw [openLoops_plain hc] at h
        obtain ⟨inner, hb, hat, rfl, rfl⟩ := ih i (Nat.lt_succ_self i) (by omega) h
        refine ⟨inner ++ [c.1], ?_, ⟨hat.1, hat.2.snoc hc⟩, ?_, rfl⟩
        · rw [Balanced, hb.nesting_append, nesting_plain, nesting_nil]
        · simp only [List.length_append, List.length_cons, List.length_nil]
          omega

/-- At a `]` the innermost open loop is the partner. -/
theorem openLoops_eq_cons_iff {i k : Nat} {l : List Nat} (h : p[i]? = some ']') :
    p.openLoops i = k :: l ↔ p.Partners k i ∧ l = p.openLoops k := by
  constructor
  · intro ho
    obtain ⟨inner, hb, hat, rfl, rfl⟩ := exists_of_openLoops_eq_cons (Nat.le_of_lt (lt_size h)) ho
    exact ⟨⟨inner, hb, ⟨hat.1, hat.2.snoc h⟩, rfl⟩, rfl⟩
  · intro h
    obtain ⟨hp, rfl⟩ := h
    exact hp.openLoops_eq

theorem openLoops_eq_nil_iff {i : Nat} (h : p[i]? = some ']') :
    p.openLoops i = [] ↔ ¬ ∃ k, p.Partners k i := by
  constructor
  · intro ho hk
    obtain ⟨k, hp⟩ := hk
    rw [hp.openLoops_eq] at ho
    cases ho
  · intro hn
    cases ho : p.openLoops i with
    | nil => rfl
    | cons k l => exact absurd ⟨k, ((openLoops_eq_cons_iff h).1 ho).1⟩ hn

/-- A program of which every loop closes leaves none open. -/
theorem openLoops_size_eq_nil (h : ∀ k, p[k]? = some '[' → ∃ i, p.Partners k i) : p.openLoops p.size = [] := by
  cases ho : p.openLoops p.size with
  | nil => rfl
  | cons k l =>
    obtain ⟨inner, hb, hat, hsize, -⟩ := exists_of_openLoops_eq_cons (Nat.le_refl _) ho
    obtain ⟨i, inner', hb', hat', rfl⟩ := h k hat.1
    -- the loop would close before the program ends, inside a balanced text
    have hlt := lt_size hat'.2.right.1
    obtain ⟨t, rfl⟩ := hat'.2.isPrefix hat.2 (by rw [List.length_append, List.length_singleton]; omega)
    rw [Balanced, List.append_assoc, hb'.nesting_append, List.singleton_append, nesting_leave_zero] at hb
    cases hb

/-! ## Looking for the end of a loop -/

theorem charAt?_natCast {j : Nat} : p.charAt? j = p[j]? := by simp [charAt?]

theorem closeFrom_succ {d j n : Nat} :
    p.closeFrom d j (n + 1) =
      if depthAfter d p[j]? = 0 then some (j : Int) else p.closeFrom (depthAfter d p[j]?) (j + 1 : Nat) n := by
  rw [closeFrom, charAt?_natCast]
  rfl

theorem depthAfter_plain {d : Nat} {c : Plain} : depthAfter d (some c.1) = d := by
  unfold depthAfter
  split
  · next h => exact absurd (Option.some.inj h) c.2.1
  · next h => exact absurd (Option.some.inj h) c.2.2
  · rfl

/-- The search passes a block as it is. -/
theorem closeFrom_block {b : Block} {d j n : Nat} (h : p.At j b.text) :
    p.closeFrom (d + 1) j (b.text.length + n) = p.closeFrom (d + 1) (j + b.text.length : Nat) n := by
  induction b generalizing d j n with
  | done => simp [Block.text]
  | plain c rest ih =>
    rw [Block.text, List.length_cons, Nat.add_right_comm, closeFrom_succ, h.1, depthAfter_plain,
      if_neg (Nat.succ_ne_zero d), ih h.2]
    congr 2
    omega
  | loop body rest ihb ihr =>
    obtain ⟨hj, h⟩ := h
    have hl := h.right
    rw [Block.text, List.length_cons, List.length_append, List.length_cons]
    rw [show body.text.length + (rest.text.length + 1) + 1 + n =
        body.text.length + (rest.text.length + n + 1) + 1 by omega]
    rw [closeFrom_succ, hj, show depthAfter (d + 1) (some '[') = d + 1 + 1 from rfl,
      if_neg (Nat.succ_ne_zero _), ihb h.left, closeFrom_succ, hl.1,
      show depthAfter (d + 1 + 1) (some ']') = d + 1 from rfl, if_neg (Nat.succ_ne_zero d), ihr hl.2]
    congr 2
    omega

theorem Partners.close? {k i : Nat} (h : p.Partners k i) : p.close? (k + 1) = some (i : Int) := by
  have hi := lt_size h.leave
  obtain ⟨inner, hb, hat, rfl⟩ := h
  obtain ⟨b, rfl⟩ := balanced_iff.1 hb
  obtain ⟨n, hn⟩ : ∃ n, (p.size - (k + 1 : Nat) : Int).toNat = b.text.length + (n + 1) :=
    ⟨p.size - (k + 1 + b.text.length) - 1, by omega⟩
  have hl : p[k + 1 + b.text.length]? = some ']' := hat.2.right.1
  rw [Program.close?, ← Int.natCast_succ, hn, closeFrom_block hat.2.left, closeFrom_succ, hl]
  rfl

/-- What the search finds closes the outermost loop it is inside of. -/
theorem exists_of_closeFrom {k j n : Nat} {e : Int} {inside outside : List Nat}
    (ho : p.openLoops j = inside ++ k :: outside)
    (h : p.closeFrom (inside.length + 1) j n = some e) : ∃ i : Nat, e = i ∧ p.Partners k i := by
  induction n generalizing j inside with
  | zero => cases h
  | succ n ih =>
    rw [closeFrom_succ] at h
    cases hj : p[j]? with
    | none =>
      rw [hj] at h
      exact ih (by rw [openLoops_past hj, ho]) h
    | some c =>
      rw [hj] at h
      rcases char_cases c with rfl | rfl | ⟨c, rfl⟩
      · rw [show depthAfter (inside.length + 1) (some '[') = (j :: inside).length + 1 from rfl,
          if_neg (Nat.succ_ne_zero _)] at h
        exact ih (by rw [openLoops_enter hj, ho, List.cons_append]) h
      · rw [show depthAfter (inside.length + 1) (some ']') = inside.length from rfl] at h
        cases inside with
        | nil =>
          rw [List.length_nil, if_pos rfl] at h
          cases h
          exact ⟨j, rfl, ((openLoops_eq_cons_iff hj).1 ho).1⟩
        | cons x inside =>
          rw [List.length_cons, if_neg (Nat.succ_ne_zero _)] at h
          exact ih (by rw [openLoops_leave hj, ho, List.cons_append, List.tail_cons]) h
      · rw [depthAfter_plain, if_neg (Nat.succ_ne_zero _)] at h
        exact ih (by rw [openLoops_plain hj, ho]) h

/-- The search finds the partner of a `[`. -/
theorem close?_eq_some_iff {k : Nat} {e : Int} (h : p[k]? = some '[') :
    p.close? (k + 1) = some e ↔ ∃ i : Nat, e = i ∧ p.Partners k i := by
  constructor
  · intro he
    have ho : p.openLoops (k + 1) = [] ++ k :: p.openLoops k := openLoops_enter h
    rw [Program.close?, ← Int.natCast_succ] at he
    exact exists_of_closeFrom ho he
  · intro h
    obtain ⟨i, rfl, hp⟩ := h
    exact hp.close?

theorem close?_eq_none_iff {k : Nat} (h : p[k]? = some '[') :
    p.close? (k + 1) = none ↔ ¬ ∃ i, p.Partners k i := by
  constructor
  · intro hn hi
    obtain ⟨i, hp⟩ := hi
    rw [hp.close?] at hn
    cases hn
  · intro hn
    cases he : p.close? (k + 1) with
    | none => rfl
    | some e =>
      obtain ⟨i, -, hp⟩ := (close?_eq_some_iff h).1 he
      exact absurd ⟨i, hp⟩ hn

end Program
end TapeMachine
