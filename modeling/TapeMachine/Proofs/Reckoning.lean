/-
Dead reckoning. Where the head is and what the cells hold after a run follows
from the characters that were done, in their order, whatever loops they were
done in: every `>` and `<` moves the head by one cell (`displacement`), every
`+` and `-` changes the cell that the moves before it have led to (`gain`).
A character either does just that or leaves the tape (`obey_reckons`), so a
plain run that neither writes, reads nor reports is known from its trace
(`Run.reckons_of_going`).
-/
import TapeMachine.Proofs.Trace

namespace TapeMachine

open Machine Run Program

variable {s : Setup} {p : Program} {i j n : Nat} {m m₁ m₂ m' : Machine} {a b c : Char} {o q : Int} {t u : List Char}

/-! ## Texts -/

/-- How far to the right a text moves the head, all in all. -/
def displacement (t : List Char) : Int := t.count '>' - t.count '<'

/-- How often the text has the character where its moves have led to offset `o`. -/
def countAt (c : Char) (o : Int) (t : List Char) : Nat :=
  (List.range t.length).countP fun k => t[k]? = some c ∧ displacement (t.take k) = o

/-- By how much the text changes the cell at offset `o`. -/
def gain (t : List Char) (o : Int) : Int := countAt '+' o t - countAt '-' o t

@[simp] theorem displacement_nil : displacement [] = 0 := rfl

theorem displacement_append : displacement (t ++ u) = displacement t + displacement u := by
  simp only [displacement, List.count_append]
  omega

theorem displacement_cons : displacement (c :: t) = displacement [c] + displacement t :=
  displacement_append (t := [c])

theorem displacement_of_not_mem (hr : '>' ∉ t) (hl : '<' ∉ t) : displacement t = 0 := by
  rw [displacement, List.count_eq_zero.2 hr, List.count_eq_zero.2 hl]
  rfl

@[simp] theorem gain_nil : gain [] o = 0 := rfl

theorem countAt_append : countAt c o (t ++ u) = countAt c o t + countAt c (o - displacement t) u := by
  rw [countAt, List.length_append, List.range_add, List.countP_append, List.countP_map]
  congr 1
  · refine List.countP_congr fun k hk => ?_
    have hlt := List.mem_range.1 hk
    rw [List.getElem?_append_left hlt, List.take_append_of_le_length (Nat.le_of_lt hlt)]
  · refine List.countP_congr fun k _ => ?_
    rw [Function.comp_apply, List.getElem?_append_right (Nat.le_add_right _ _), Nat.add_sub_cancel_left,
      List.take_length_add_append, displacement_append, decide_eq_true_iff, decide_eq_true_iff, eq_sub_iff_add_eq']

theorem gain_append : gain (t ++ u) o = gain t o + gain u (o - displacement t) := by
  simp only [gain, countAt_append]
  omega

theorem countAt_eq_zero (h : c ∉ t) : countAt c o t = 0 := by
  refine List.countP_eq_zero.2 fun k _ hk => ?_
  exact h (List.mem_of_getElem? (of_decide_eq_true hk).1)

theorem gain_of_not_mem (hi : '+' ∉ t) (hd : '-' ∉ t) : gain t o = 0 := by
  rw [gain, countAt_eq_zero hi, countAt_eq_zero hd]
  rfl

theorem countAt_singleton : countAt a o [c] = if c = a ∧ o = 0 then 1 else 0 := by
  simp [countAt, List.countP_cons, eq_comm (a := (0 : Int))]

/-- One character changes no cell but that under the head. -/
theorem gain_singleton_of_ne (h : o ≠ 0) : gain [c] o = 0 := by
  simp [gain, countAt_singleton, h]

/-! ## The reckoned tape -/

/-- The second tape is the first after the text was done on it, as reckoned. -/
structure Tape.Reckons (w : List Char) (t t' : Tape) : Prop where
  size : t'.size = t.size
  head : (t'.head : Int) = t.head + displacement w
  value : ∀ i < t.size, ((t'.value i).toNat : Int) = ((t.value i).toNat + gain w (i - t.head)) % 256

namespace Tape.Reckons

variable {x y z : Tape} {v : UInt8} {w w' : List Char}

theorem refl : x.Reckons [] x where
  size := rfl
  head := (Int.add_zero _).symm
  value i _ := by
    have := (x.value i).toNat_lt
    rw [gain_nil]
    omega

theorem trans (h : x.Reckons w y) (h' : y.Reckons w' z) : x.Reckons (w ++ w') z where
  size := h'.size.trans h.size
  head := by rw [h'.head, h.head, displacement_append, Int.add_assoc]
  value i hi := by
    rw [h'.value i (h.size ▸ hi), h.value i hi, h.head, gain_append, ← Int.sub_sub, Int.emod_add_emod, Int.add_assoc]

/-- The cell that the head has come back to. -/
theorem cell (h : x.Reckons w y) (hw : displacement w = 0) :
    (y.cell.toNat : Int) = (x.cell.toNat + gain w 0) % 256 := by
  have hhead := h.head
  rw [hw, Int.add_zero, Int.ofNat_inj] at hhead
  rw [cell_eq_value, hhead, h.value _ x.head_lt, Int.sub_self, cell_eq_value]

/-- A character that moves the head changes no cell. -/
theorem of_move (hc : y.cells = x.cells) (hh : (y.head : Int) = x.head + displacement [c]) (hi : '+' ≠ c)
    (hd : '-' ≠ c) : x.Reckons [c] y where
  size := congrArg Array.size hc
  head := hh
  value i _ := by
    have := (x.value i).toNat_lt
    rw [value_eq_of_cells_eq hc, gain_of_not_mem (by simpa using hi) (by simpa using hd)]
    omega

/-- A character that changes the cell moves no head. -/
theorem of_write (hv : (v.toNat : Int) = (x.cell.toNat + gain [c] 0) % 256) (hr : '>' ≠ c) (hl : '<' ≠ c) :
    x.Reckons [c] (x.write v) where
  size := size_write
  head := by rw [displacement_of_not_mem (by simpa using hr) (by simpa using hl), Int.add_zero, head_write]
  value i _ := by
    rw [value_write]
    split
    · next h => rw [hv, h, Int.sub_self, cell_eq_value]
    · next h =>
      have := (x.value i).toNat_lt
      rw [gain_singleton_of_ne (by omega)]
      omega

/-- All other characters do nothing to a tape. -/
theorem idle (h : c ∉ ['>', '<', '+', '-']) : x.Reckons [c] x := by
  simp only [List.mem_cons, List.not_mem_nil, or_false, not_or] at h
  obtain ⟨hr, hl, hi, hd⟩ := h
  refine of_move rfl ?_ (Ne.symm hi) (Ne.symm hd)
  rw [displacement_of_not_mem (by simpa using Ne.symm hr) (by simpa using Ne.symm hl), Int.add_zero]

theorem right (h : x.right? = some y) : x.Reckons ['>'] y := by
  obtain ⟨hc, hh⟩ := right?_eq_some_iff.1 h
  exact of_move hc (congrArg Nat.cast hh) (by decide) (by decide)

theorem left (h : x.left? = some y) : x.Reckons ['<'] y := by
  obtain ⟨hc, hh⟩ := left?_eq_some_iff.1 h
  refine of_move hc ?_ (by decide) (by decide)
  rw [show displacement ['<'] = -1 from rfl]
  omega

theorem increment : x.Reckons ['+'] (x.write (x.cell + 1)) := by
  refine of_write ?_ (by decide) (by decide)
  rw [show gain ['+'] 0 = 1 from rfl, UInt8.toNat_add]
  rfl

theorem decrement : x.Reckons ['-'] (x.write (x.cell - 1)) := by
  refine of_write ?_ (by decide) (by decide)
  have := x.cell.toNat_lt
  rw [show gain ['-'] 0 = -1 from rfl, UInt8.toNat_sub]
  simp only [UInt8.reduceToNat]
  omega

end Tape.Reckons

/-- The second machine is the first after the text was done, as reckoned; what
it has noted and the input are as they were. -/
structure Machine.Reckons (w : List Char) (m m' : Machine) : Prop where
  tape : m.tape.Reckons w m'.tape
  unread : m'.unread = m.unread
  tally : m'.tally = { m.tally with steps := m.tally.steps + w.length }
  pauses : m'.pauses = m.pauses
  log : m'.log = m.log

namespace Machine.Reckons

variable {w w' : List Char}

theorem refl : m.Reckons [] m := ⟨.refl, rfl, rfl, rfl, rfl⟩

theorem trans (h : m.Reckons w m₁) (h' : m₁.Reckons w' m₂) : m.Reckons (w ++ w') m₂ where
  tape := h.tape.trans h'.tape
  unread := h'.unread.trans h.unread
  tally := by rw [h'.tally, h.tally, List.length_append, Nat.add_assoc]
  pauses := h'.pauses.trans h.pauses
  log := h'.log.trans h.log

end Machine.Reckons

/-! ## Characters -/

/-- The text neither writes nor reads nor reports. -/
def Mute (t : List Char) : Prop := ∀ c ∈ t, c ∉ ['.', ',', '#']

instance (t : List Char) : Decidable (Mute t) := List.decidableBAll (p := fun c => c ∉ ['.', ',', '#']) t

namespace Machine

/-- A character that is no bracket does as reckoned, or it leaves the tape. -/
theorem obey_reckons {c : Plain} (hc : Mute [c.1]) :
    (∃ m', m.obey s c = .ok m' ∧ m.Reckons [c.1] m') ∨
    m.obey s c = .error (.overflow (m.tape.head + displacement [c.1])) ∧
      (m.tape.head + displacement [c.1] = -1 ∨ m.tape.head + displacement [c.1] = m.tape.size) := by
  have ho := m.obeys (s := s) (c := c)
  obtain ⟨c, hb⟩ := c
  dsimp only at hc ho
  generalize m.obey s ⟨c, hb⟩ = e at ho
  cases hcmd : Command.ofChar? c with
  | none =>
    have hidle : c ∉ ['>', '<', '+', '-'] := by
      intro h
      simp only [List.mem_cons, List.not_mem_nil, or_false] at h
      rcases h with rfl | rfl | rfl | rfl <;> cases hcmd
    rw [hcmd] at ho
    cases ho
    exact .inl ⟨_, rfl, .idle hidle, rfl, rfl, rfl, rfl⟩
  | some cmd =>
    obtain rfl := Command.ofChar?_eq_some_iff.1 hcmd
    rw [hcmd] at ho
    cases ho with
    | right ht => exact .inl ⟨_, rfl, .right ht, rfl, rfl, rfl, rfl⟩
    | pastRight ht =>
      have hhead := Tape.right?_eq_none_iff.1 ht
      exact .inr ⟨rfl, .inr (congrArg Nat.cast hhead)⟩
    | left ht => exact .inl ⟨_, rfl, .left ht, rfl, rfl, rfl, rfl⟩
    | pastLeft ht =>
      have hhead := Tape.left?_eq_none_iff.1 ht
      refine .inr ⟨rfl, .inl ?_⟩
      rw [hhead]
      rfl
    | increment => exact .inl ⟨_, rfl, .increment, rfl, rfl, rfl, rfl⟩
    | decrement => exact .inl ⟨_, rfl, .decrement, rfl, rfl, rfl, rfl⟩
    | put | get | report => simp [Mute, Command.char] at hc

end Machine

/-! ## Steps and runs -/

namespace Run

/-- A step that goes on does as reckoned. -/
theorem step_reckons (hs : s.debug = false) (hc : p[i]? = some c) (hm : Mute [c])
    (h : step s p (.going i m) = .going j m') : m.Reckons [c] m' := by
  rcases or_assoc.2 (char_cases c) with hb | ⟨c, rfl⟩
  · have hidle : c ∉ ['>', '<', '+', '-'] := by rcases hb with rfl | rfl <;> decide
    rcases step_bracket (m := m) hs hc hb with ⟨k, l, hstep⟩ | ⟨f, hstep⟩
    · rw [hstep m rfl rfl] at h
      cases h
      exact ⟨.idle hidle, rfl, rfl, rfl, rfl⟩
    · rw [hstep m rfl rfl] at h
      cases h
  · rcases m.obey_reckons (s := s) hm with ⟨m₁, ho, hr⟩ | ⟨ho, -⟩
    · rw [(Dispatch.plain ho).step_eq_going hs hc] at h
      cases h
      exact hr
    · rw [(Dispatch.fault ho).step_eq hc] at h
      cases h

/-- A run that goes on is where its trace tells. -/
theorem reckons_of_going (hs : s.debug = false) (hm : Mute (trace s p n (.going i m)))
    (h : steps s p n (.going i m) = .going j m') : m.Reckons (trace s p n (.going i m)) m' := by
  induction n generalizing i m with
  | zero =>
    cases h
    exact .refl
  | succ n ih =>
    rw [steps_succ] at h
    cases hr : step s p (.going i m) with
    | ended f m₁ =>
      rw [hr, steps_ended] at h
      cases h
    | going k m₁ =>
      obtain ⟨c, -, hc, -⟩ := exists_dispatch_of_going hr
      rw [hr] at h
      rw [trace_going, hr, hc, Option.toList_some] at hm ⊢
      exact (step_reckons hs hc (List.forall_mem_append.1 hm).1 hr).trans (ih (List.forall_mem_append.1 hm).2 h)

end Run

/-! ## Where a run has come to -/

/-- The run has done these characters and stands at cursor `j`. -/
structure Machine.Arrives (s : Setup) (p : Program) (m : Machine) (w : List Char) (j : Nat) (m' : Machine) : Prop where
  steps : steps s p w.length (.going 0 (m.inside [])) = .going j m'
  trace : trace s p w.length (.going 0 (m.inside [])) = w

namespace Machine.Arrives

variable {w : List Char}

theorem start : m.Arrives s p [] 0 (m.inside []) := ⟨rfl, rfl⟩

theorem loops_eq (h : m.Arrives s p w i m₁) : m₁.loops = p.openLoops i := (reaches_of_steps h.steps).loops

theorem go (h : m.Arrives s p w i m₁) (hsteps : Run.steps s p t.length (.going i m₁) = .going j m₂)
    (htrace : Run.trace s p t.length (.going i m₁) = t) : m.Arrives s p (w ++ t) j m₂ where
  steps := by rw [List.length_append, steps_add, h.steps, hsteps]
  trace := by rw [List.length_append, trace_add, h.trace, h.steps, htrace]

theorem step (h : m.Arrives s p w i m₁) (hc : p[i]? = some c) (hstep : Run.step s p (.going i m₁) = .going j m₂) :
    m.Arrives s p (w ++ [c]) j m₂ :=
  h.go hstep (by rw [List.length_singleton, trace_going, hc, trace_zero]; rfl)

/-- The step that ends the run is the last. -/
theorem ends {f : Option Fault} (h : m.Arrives s p w i m₁) (hstep : Run.step s p (.going i m₁) = .ended f m₂) :
    m.Ends s p (w ++ p[i]?.toList) ⟨f, m₂⟩ := by
  have hend : Run.steps s p (w.length + 1) (.going 0 (m.inside [])) = .ended f m₂ := by
    rw [steps_add, h.steps]
    exact hstep
  have he := ends_of_steps hend
  rwa [trace_add, h.trace, h.steps, trace_going, trace_zero, List.append_nil] at he

/-- The machine is as reckoned. -/
theorem reckons (h : m.Arrives s p w j m') (hs : s.debug = false) (hw : Mute w) : m.Reckons w m' := by
  have hr := reckons_of_going hs (by rwa [h.trace]) h.steps
  rw [h.trace] at hr
  exact ⟨hr.tape, hr.unread, hr.tally, hr.pauses, hr.log⟩

end Machine.Arrives

end TapeMachine
