/-
Brainfuck programs: a program is a text, its commands are nine of the
characters, and every other character is a comment that does nothing. The
only structure a program has besides its characters is where a loop closes,
which is found by counting brackets when it is asked for.
-/

namespace TapeMachine

/-- The commands: the eight of the language, and `report`, which prints the
state of the machine. -/
inductive Command
  | right | left | increment | decrement | put | get | enter | leave | report
deriving DecidableEq, Repr

/-- A character that is no command is a comment. -/
def Command.ofChar? : Char → Option Command
  | '>' => some .right
  | '<' => some .left
  | '+' => some .increment
  | '-' => some .decrement
  | '.' => some .put
  | ',' => some .get
  | '[' => some .enter
  | ']' => some .leave
  | '#' => some .report
  | _ => none

/-- A program text, by position. -/
abbrev Program := Array Char

namespace Program

def ofString (s : String) : Program := s.toList.toArray

/-- The character at a position; a negative position counts from the end. -/
def charAt? (p : Program) (j : Int) : Option Char :=
  if 0 ≤ j then p[j.toNat]?
  else if -j ≤ p.size then p[(p.size + j).toNat]?
  else none

/-- How many loops are open after one more character. -/
def depthAfter (depth : Nat) : Option Char → Nat
  | some '[' => depth + 1
  | some ']' => depth - 1
  | _ => depth

/-- The first of the next `n` positions at which no loop is open any more. -/
def closeFrom (p : Program) (depth : Nat) (j : Int) : Nat → Option Int
  | 0 => none
  | n + 1 =>
    let depth' := depthAfter depth (p.charAt? j)
    if depth' = 0 then some j else p.closeFrom depth' (j + 1) n

/-- Where the loop whose body begins at `start` closes. -/
def close? (p : Program) (start : Int) : Option Int :=
  p.closeFrom 1 start (p.size - start).toNat

end Program
end TapeMachine
