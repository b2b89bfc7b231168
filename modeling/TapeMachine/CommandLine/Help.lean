/-
The help text: usage, description and a table of the arguments, whose second
column is wrapped.
-/
import TapeMachine.Text.Wrap

namespace TapeMachine.CommandLine

def programName : String := "brainfuck"

def usage : String :=
  "usage: brainfuck [-h] [-d] [--tape-length TAPE_LENGTH]\n" ++
  "                 [--memory-window MEMORY_WINDOW]\n" ++
  "                 [input]\n"

def description : String :=
  "Brainfuck interpreter. Pass it the code or a file to run. If there are no arguments, " ++
  "it reads from the standard input."

def pageWidth : Nat := 78

/-- Where the second column of the table begins. -/
def helpColumn : Nat := 24

def spaces (n : Nat) : String := String.ofList (List.replicate n ' ')

/-- A row of the table: an argument and what it is for. An argument too wide
for the first column has a line to itself. -/
def helpRow (argument text : String) : List String :=
  let lines := Text.wrap (pageWidth - helpColumn) text
  let first := "  " ++ argument
  let indented := lines.map (spaces helpColumn ++ ·)
  match lines with
  | line :: _ =>
    if first.length + 2 ≤ helpColumn then
      (first ++ spaces (helpColumn - first.length) ++ line) :: indented.tail
    else first :: indented
  | [] => [first]

/-- The help text, with the tape length that holds where none is given. -/
def helpText (tapeLength : Nat) : String :=
  let rows :=
    ["positional arguments:"] ++ helpRow "input" "Program code or file to run" ++
    ["", "options:"] ++
    helpRow "-h, --help" "show this help message and exit" ++
    helpRow "-d, --debug" "Pause after every instruction and print the internal state" ++
    helpRow "--tape-length TAPE_LENGTH" ("Number of memory cells (default: " ++ Nat.repr tapeLength ++ ")") ++
    helpRow "--memory-window MEMORY_WINDOW"
      "Cells of tape shown around the pointer in debug reports (0 = off)"
  usage ++ String.join (([""] ++ Text.wrap pageWidth description ++ [""] ++ rows).map (· ++ "\n"))

end TapeMachine.CommandLine
