/-
Words set in lines of a limited width, each line as full as it can be. A word
wider than a line is broken: it fills up the line it comes to and goes on in
pieces of a full line.
-/

namespace TapeMachine.Text

/-- A word in pieces of `width` characters, the last perhaps shorter. -/
def wordPieces (width : Nat) (w : List Char) : List (List Char) :=
  if _ : width = 0 ∨ w.length ≤ width then [w]
  else w.take width :: wordPieces width (w.drop width)
termination_by w.length
decreasing_by simp only [List.length_drop]; omega

/-- A word put after the words of an open line: the lines that are full then,
and the line that is open. -/
def placeWord (width : Nat) (line w : List Char) : List (List Char) × List Char :=
  let joined := if line.isEmpty then w else line ++ ' ' :: w
  if joined.length ≤ width then ([], joined)
  else if w.length ≤ width then ([line], w)
  else
    let used := if line.isEmpty then 0 else line.length + 1
    let rest := wordPieces width (w.drop (width - used))
    (joined.take width :: rest.dropLast, rest.getLastD [])

/-- The lines that words make after an open line. -/
def fillLines (width : Nat) (line : List Char) : List (List Char) → List (List Char)
  | [] => if line.isEmpty then [] else [line]
  | w :: ws =>
    let (full, line) := placeWord width line w
    full ++ fillLines width line ws

/-- A text of words, one space between two, in lines of at most `width`
characters. -/
def wrap (width : Nat) (s : String) : List String :=
  (fillLines width [] ((s.splitOn " ").map String.toList)).map String.ofList

end TapeMachine.Text
