/-
The statements of an env file: `KEY=value`, `KEY` alone, comments, and what
is none of these. A value is bare, up to the end of the line or a comment, or
in single or double quotes, and may then span lines. What cannot be read is
given up to the end of the line on which it went wrong, and reading goes on.

Line ends are single line feeds here.
-/
import TapeMachine.Text.Blank

namespace TapeMachine.EnvFile
open Text

/-- What one statement says. -/
inductive Statement
  | nothing
  /-- A key, and its value if there is an equals sign. -/
  | binding (key : String) (value : Option String)
  | malformed
deriving DecidableEq, Repr

/-- A reading of the front of a text: what was read and the rest, or, where
it fails, the text from the place that could not be read. -/
abbrev Reading (α : Type) := Except (List Char) (α × List Char)

def isLineEnd (c : Char) : Bool := c = '\n' || c = '\r'

/-- A blank within a line. -/
def isGap (c : Char) : Bool := isBlank c && !isLineEnd c

def skipGaps (s : List Char) : List Char := s.dropWhile isGap

/-! ## Keys -/

def isKeyChar (c : Char) : Bool := c ≠ '=' && c ≠ '#' && !isBlank c

/-- The word that may stand before a key, with the blanks after it. -/
def skipExport (s : List Char) : List Char :=
  match s with
  | 'e' :: 'x' :: 'p' :: 'o' :: 'r' :: 't' :: c :: rest => if isGap c then skipGaps rest else s
  | _ => s

/-- A key, bare or in single quotes; none where a comment begins. -/
def readKey (s : List Char) : Reading (Option (List Char)) :=
  match s with
  | '#' :: _ => .ok (none, s)
  | '\'' :: rest =>
    match rest.takeWhile (· ≠ '\''), rest.dropWhile (· ≠ '\'') with
    | c :: key, _ :: after => .ok (some (c :: key), after)
    | _, _ => .error s
  | _ =>
    match s.takeWhile isKeyChar with
    | [] => .error s
    | key => .ok (some key, s.dropWhile isKeyChar)

/-! ## Values -/

/-- The text up to the closing quote, with its escapes as they stand, and the
rest. A backslash takes the next character with it, a line feed as well. -/
def untilQuote (q : Char) : List Char → Option (List Char × List Char)
  | [] => none
  | '\\' :: c :: rest => (untilQuote q rest).map fun (body, after) => ('\\' :: c :: body, after)
  | c :: rest =>
    if c = q then some ([], rest)
    else if c = '\\' then none
    else (untilQuote q rest).map fun (body, after) => (c :: body, after)

/-- The escapes of single quotes. -/
def escapeInSingle? : Char → Option Char
  | '\\' => some '\\'
  | '\'' => some '\''
  | _ => none

/-- The escapes of double quotes. -/
def escapeInDouble? : Char → Option Char
  | '\\' => some '\\'
  | '\'' => some '\''
  | '"' => some '"'
  | 'a' => some '\x07'
  | 'b' => some '\x08'
  | 'f' => some '\x0c'
  | 'n' => some '\n'
  | 'r' => some '\r'
  | 't' => some '\t'
  | 'v' => some '\x0b'
  | _ => none

/-- Puts the characters that escapes stand for; other backslashes stay. -/
def unescape (escape? : Char → Option Char) : List Char → List Char
  | '\\' :: c :: rest =>
    match escape? c with
    | some d => d :: unescape escape? rest
    | none => '\\' :: unescape escape? (c :: rest)
  | c :: rest => c :: unescape escape? rest
  | [] => []

/-- A bare value up to a comment, which begins after a blank. -/
def beforeComment : List Char → List Char
  | [] => []
  | c :: rest =>
    if isBlank c && (rest.dropWhile isBlank).head? = some '#' then [] else c :: beforeComment rest

def readQuoted (q : Char) (escape? : Char → Option Char) (s : List Char) : Reading (List Char) :=
  match untilQuote q s.tail with
  | some (body, after) => .ok (unescape escape? body, after)
  | none => .error s

/-- The value after an equals sign and the blanks that follow it. -/
def readValue (s : List Char) : Reading (List Char) :=
  match s with
  | '\'' :: _ => readQuoted '\'' escapeInSingle? s
  | '"' :: _ => readQuoted '"' escapeInDouble? s
  | _ =>
    .ok (dropEndWhile isBlank (beforeComment (s.takeWhile (!isLineEnd ·))), s.dropWhile (!isLineEnd ·))

/-- An equals sign and a value, if the sign is there. A comment that follows
the sign after blanks leaves the value empty. -/
def readAssignment (s : List Char) : Reading (Option (List Char)) :=
  match s with
  | '=' :: rest =>
    match rest, skipGaps rest with
    | c :: _, '#' :: after =>
      if isGap c then .ok (some [], '#' :: after)
      else (readValue ('#' :: after)).map fun (v, s) => (some v, s)
    | _, after => (readValue after).map fun (v, s) => (some v, s)
  | _ => .ok (none, s)

/-! ## Lines -/

def skipComment (s : List Char) : List Char :=
  match skipGaps s with
  | '#' :: rest => rest.dropWhile (!isLineEnd ·)
  | _ => s

/-- The end of a statement: a comment perhaps, and nothing else on the line. -/
def readEnd (s : List Char) : Reading Unit :=
  let s := skipComment s
  match skipGaps s with
  | [] => .ok ((), [])
  | c :: rest => if isLineEnd c then .ok ((), rest) else .error s

/-- What follows the line. -/
def skipLine (s : List Char) : List Char := (s.dropWhile (!isLineEnd ·)).tail

def readBinding (s : List Char) : Except (List Char) (Statement × List Char) := do
  let (key, s) ← readKey (skipExport s)
  let (value, s) ← readAssignment (skipGaps s)
  let (_, s) ← readEnd s
  match key with
  | none => return (.nothing, s)
  | some key => return (.binding (String.ofList key) (value.map String.ofList), s)

/-- One statement and the rest of the text. -/
def readStatement (s : List Char) : Statement × List Char :=
  match s.dropWhile isBlank with
  | [] => (.nothing, [])
  | s =>
    match readBinding s with
    | .ok result => result
    | .error s => (.malformed, skipLine s)

/-- What a text says: the bindings in order, and the lines of the statements
that could not be read, counted from 1 where the one before ended. -/
structure Contents where
  bindings : List (String × Option String)
  malformed : List Nat
deriving DecidableEq, Repr

/-- The statements of a text from a line on, `fuel` of them at most. -/
def readFrom (line : Nat) (s : List Char) : Nat → Contents
  | 0 => ⟨[], []⟩
  | fuel + 1 =>
    if s.isEmpty then ⟨[], []⟩
    else
      let (statement, rest) := readStatement s
      let later := readFrom (line + s.count '\n' - rest.count '\n') rest fuel
      match statement with
      | .nothing => later
      | .binding key value => { later with bindings := (key, value) :: later.bindings }
      | .malformed => { later with malformed := line :: later.malformed }

/-- The statements of a text. Each takes a character at least, so there are
no more of them than characters. -/
def read (s : List Char) : Contents := readFrom 1 s s.length

end TapeMachine.EnvFile
