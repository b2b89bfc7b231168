/-
State reports: the line that names the head's position and value, and, where
a stretch of tape is shown as well, three lines that draw its cells, mark the
head and number the cells. Cells and marks take three columns each; an
address takes three or more.
-/
import TapeMachine.Tape

namespace TapeMachine

/-- A stretch of tape, from `start` up to and excluding `stop`. -/
structure Window where
  start : Nat
  stop : Nat
deriving DecidableEq, Repr

/-- The window of `range` cells centred on the head, pushed back onto the
tape where it would hang over an end. -/
def Tape.window (t : Tape) (range : Nat) : Window :=
  let start := t.head - range / 2
  let stop := min t.size (start + range)
  if stop - start < range then ⟨stop - range, stop⟩ else ⟨start, stop⟩

/-- The cells of a window, with the index of the first. -/
structure View where
  start : Nat
  cells : List UInt8
deriving DecidableEq, Repr

def Tape.view (t : Tape) (range : Nat) : View :=
  let w := t.window range
  ⟨w.start, (t.cells.extract w.start w.stop).toList⟩

/-- What a state report tells. -/
structure Report where
  head : Nat
  value : UInt8
  view : Option View
deriving DecidableEq, Repr

/-- The report of a tape, with a view of so many cells if one is asked for. -/
def Tape.report (t : Tape) (range : Option Nat) : Report :=
  ⟨t.head, t.cell, range.map t.view⟩

namespace Report

/-- A text set flush right in a field of at least `width` columns. -/
def flushRight (width : Nat) (s : String) : String :=
  String.ofList (List.replicate (width - s.length) ' ') ++ s

def memoryLine (v : View) : String :=
  "Memory:   [" ++ "|".intercalate (v.cells.map fun c => flushRight 3 (Nat.repr c.toNat)) ++ "]"

/-- The mark above the address of the head, blanks above the others. -/
def mark (head i : Nat) : String := if i = head then " ^ " else "   "

def pointerLine (head : Nat) (v : View) : String :=
  "Pointer:   " ++ " ".intercalate ((List.range' v.start v.cells.length).map (mark head))

def addressLine (v : View) : String :=
  "Address:   " ++
    " ".intercalate ((List.range' v.start v.cells.length).map fun i => flushRight 3 (Nat.repr i))

def headLine (r : Report) : String :=
  "Ptr: " ++ Nat.repr r.head ++ ", value: " ++ Nat.repr r.value.toNat

def lines (r : Report) : List String :=
  match r.view with
  | none => [r.headLine]
  | some v => [r.headLine, memoryLine v, pointerLine r.head v, addressLine v]

/-- The report as it is printed, each line ended. -/
def text (r : Report) : String := String.join (r.lines.map (· ++ "\n"))

/-! ## The text of a report -/

theorem text_eq {r : Report} : r.text = r.headLine ++ "\n" ++ r.view.elim "" fun v =>
    memoryLine v ++ "\n" ++ pointerLine r.head v ++ "\n" ++ addressLine v ++ "\n" := by
  unfold text lines
  cases r.view <;> simp [String.append_assoc]

theorem head?_text {r : Report} : r.text.toList.head? = some 'P' := by
  rw [text_eq, headLine]
  simp

end Report
end TapeMachine
