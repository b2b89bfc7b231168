/-
The tape: a bounded, never empty row of byte cells and a head that stands
on one of them. Cells count modulo 256; the two ends are hard, so a move
past one has no result.
-/

namespace TapeMachine

/-- A row of byte cells and a head over one of them. -/
structure Tape where
  cells : Array UInt8
  head : Nat
  head_lt : head < cells.size
deriving DecidableEq, Repr

/-- A requested tape length that leaves no cell to stand on. -/
structure NoCells where
  requested : Int
deriving DecidableEq, Repr

def NoCells.message (e : NoCells) : String :=
  s!"tape_length must be at least 1, got {e.requested}"

namespace Tape

/-- The number of cells of a tape when nobody asks for another. -/
def defaultLength : Nat := 40000

/-- A tape of zeros, its head on the first cell. -/
def blank (n : Nat) (h : 0 < n) : Tape where
  cells := Array.replicate n 0
  head := 0
  head_lt := by simpa using h

/-- The blank tape of a requested length, which has to be positive. -/
def ofLength (n : Int) : Except NoCells Tape :=
  if h : 1 ≤ n then .ok (blank n.toNat (by omega)) else .error ⟨n⟩

def size (t : Tape) : Nat := t.cells.size

/-- The value under the head. -/
def cell (t : Tape) : UInt8 :=
  have := t.head_lt
  t.cells[t.head]

/-- The value of cell `i`, and 0 where there is no cell. -/
def value (t : Tape) (i : Nat) : UInt8 := t.cells.getD i 0

/-- The tape with another value under the head. -/
def write (t : Tape) (v : UInt8) : Tape where
  cells := t.cells.set t.head v t.head_lt
  head := t.head
  head_lt := by simpa using t.head_lt

def right? (t : Tape) : Option Tape :=
  if h : t.head + 1 < t.cells.size then some ⟨t.cells, t.head + 1, h⟩ else none

def left? (t : Tape) : Option Tape :=
  match h : t.head with
  | 0 => none
  | i + 1 => some ⟨t.cells, i, by have := t.head_lt; omega⟩

/-- The head put on cell `i`; off the tape there is nowhere to put it. -/
def seek? (t : Tape) (i : Nat) : Option Tape :=
  if h : i < t.cells.size then some ⟨t.cells, i, h⟩ else none

/-- A value stored at cell `i`, wherever the head is. -/
def poke? (t : Tape) (i : Nat) (v : UInt8) : Option Tape :=
  if h : i < t.cells.size then
    some ⟨t.cells.set i v h, t.head, by simpa using t.head_lt⟩
  else none

/-- The cells that are not zero, by ascending index. -/
def marked (t : Tape) : List (Nat × UInt8) :=
  t.cells.toList.zipIdx.filterMap fun (v, i) => if v = 0 then none else some (i, v)

/-! ## What the operations do to the cells and the head -/

@[simp] theorem size_blank {n : Nat} {h : 0 < n} : (blank n h).size = n := by simp [blank, size]

theorem ofLength_eq_ok_iff {n : Int} {t : Tape} :
    ofLength n = .ok t ↔ ∃ h : 1 ≤ n, t = blank n.toNat (by omega) := by
  unfold ofLength
  split
  · next h => simp [h, eq_comm]
  · next h => simp [h]

@[simp] theorem size_write {t : Tape} {v : UInt8} : (t.write v).size = t.size := by simp [write, size]

@[simp] theorem head_write {t : Tape} {v : UInt8} : (t.write v).head = t.head := rfl

@[simp] theorem cell_write {t : Tape} {v : UInt8} : (t.write v).cell = v := by simp [write, cell]

@[simp] theorem write_write {t : Tape} {v w : UInt8} : (t.write v).write w = t.write w := by simp [write]

@[simp] theorem write_cell {t : Tape} : t.write t.cell = t := by simp [write, cell]

theorem cell_eq_value {t : Tape} : t.cell = t.value t.head := by simp [cell, value, Array.getD, t.head_lt]

theorem value_blank {n : Nat} {h : 0 < n} {i : Nat} : (blank n h).value i = 0 := by
  simp only [value, blank, Array.getD_eq_getD_getElem?, Array.getElem?_replicate]
  split <;> rfl

theorem value_write {t : Tape} {v : UInt8} {i : Nat} :
    (t.write v).value i = if i = t.head then v else t.value i := by
  simp only [value, write, Array.getD_eq_getD_getElem?, Array.getElem?_set, eq_comm (a := i)]
  split <;> rfl

theorem value_eq_of_cells_eq {t u : Tape} (h : t.cells = u.cells) : t.value = u.value := by
  funext i
  rw [value, h, value]

theorem right?_eq_some_iff {t u : Tape} :
    t.right? = some u ↔ u.cells = t.cells ∧ u.head = t.head + 1 := by
  obtain ⟨cells, head, hlt⟩ := u
  simp only [right?, Option.dite_none_right_eq_some, Option.some.injEq, mk.injEq]
  constructor
  · rintro ⟨-, rfl, rfl⟩
    exact ⟨rfl, rfl⟩
  · rintro ⟨rfl, rfl⟩
    exact ⟨hlt, rfl, rfl⟩

theorem right?_eq_none_iff {t : Tape} : t.right? = none ↔ t.head + 1 = t.size := by
  have := t.head_lt
  simp only [right?, size, dite_eq_right_iff, reduceCtorEq, imp_false]
  omega

theorem left?_eq_some_iff {t u : Tape} :
    t.left? = some u ↔ u.cells = t.cells ∧ u.head + 1 = t.head := by
  obtain ⟨cells, head, hlt⟩ := u
  unfold left?
  split
  · next h => simp [h]
  · next i h =>
    simp only [Option.some.injEq, mk.injEq, h]
    constructor
    · rintro ⟨rfl, rfl⟩
      exact ⟨rfl, rfl⟩
    · rintro ⟨rfl, h₂⟩
      exact ⟨rfl, by omega⟩

theorem left?_eq_none_iff {t : Tape} : t.left? = none ↔ t.head = 0 := by
  unfold left?
  split <;> simp_all

end Tape
end TapeMachine
