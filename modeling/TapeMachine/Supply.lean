/-
Where programs come from: one file, one text given directly, or the lines of
the input, one program each. Lines are taken from the very input that
programs read, and only when the next program is asked for.
-/
import TapeMachine.Files
import TapeMachine.Text.Blank
import TapeMachine.Text.Newline
import TapeMachine.Text.Utf8

namespace TapeMachine

/-- What is said about a program before it is run. -/
inductive Announcement
  | file (path : String)
  | given (text : String)
  | line (text : String)
deriving DecidableEq, Repr

def Announcement.message : Announcement → String
  | .file path => "Loading file: " ++ path
  | .given text => "Interpreting: " ++ text
  | .line text => "Interpreting line: " ++ text

/-- A program file that holds no text. -/
structure Unreadable where
  argument : String
  reason : Text.Utf8.Malformed
deriving DecidableEq, Repr

def Unreadable.message (e : Unreadable) : String :=
  "Can not read file: " ++ e.argument ++ ", " ++ e.reason.message

/-- What is still to come. -/
inductive Supply
  /-- The one program that an argument names or is. -/
  | argument (text : String)
  | lines
  | spent
deriving DecidableEq, Repr

/-- The outcome of asking for the next program. -/
inductive Drawn
  | program (text : String)
  | unreadable (e : Unreadable)
  | finished
deriving DecidableEq, Repr

/-- A program asked for: what is said, what comes, and what is left. -/
structure Draw where
  announced : Option Announcement
  drawn : Drawn
  supply : Supply
  unread : List UInt8

namespace Supply

/-- The supply for an argument, or for none. -/
def ofArgument : Option String → Supply
  | some text => .argument text
  | none => .lines

/-- The bytes up to and including the first line feed, and the rest. -/
def takeLine : List UInt8 → List UInt8 × List UInt8
  | [] => ([], [])
  | b :: rest =>
    if b = 0x0a then ([b], rest)
    else
      let (line, rest) := takeLine rest
      (b :: line, rest)

/-- The program on a line: its text without the line end. -/
def lineText (line : List UInt8) : String :=
  String.ofList (Text.dropEndWhile (fun c => c = '\r' || c = '\n') (Text.Utf8.decodeReplacing line))

/-- The program in a file. -/
def fileText (bytes : List UInt8) : Except Text.Utf8.Malformed String :=
  (Text.Utf8.decode bytes).map fun s => String.ofList (Text.unifyNewlines s)

/-- Asks for the next program. An argument that leads to a file stands for
what is in it, and any other for itself. -/
def next (fs : Files) (unread : List UInt8) : Supply → Draw
  | .argument text =>
    let path := Path.normalise text
    match fs.read? path with
    | none => ⟨some (.given text), .program text, .spent, unread⟩
    | some bytes =>
      match fileText bytes with
      | .ok p => ⟨some (.file path), .program p, .spent, unread⟩
      | .error e => ⟨some (.file path), .unreadable ⟨text, e⟩, .spent, unread⟩
  | .lines =>
    match unread with
    | [] => ⟨none, .finished, .spent, []⟩
    | b :: rest =>
      let (line, rest) := takeLine (b :: rest)
      let text := lineText line
      ⟨some (.line text), .program text, .lines, rest⟩
  | .spent => ⟨none, .finished, .spent, unread⟩

/-! ## A supply and its input -/

/-- A supply together with the input that it shares. -/
structure Shared where
  supply : Supply
  unread : List UInt8

inductive Request
  | next
  /-- All the programs that are left. -/
  | all
  /-- So many items of the input, taken past the supply. -/
  | take (n : Nat)
deriving DecidableEq, Repr

inductive Response
  | drawn (d : Drawn)
  | programs (texts : List String)
  | items (bytes : List UInt8)
deriving DecidableEq, Repr

/-- A request answered: what was said, the answer, and what is left. -/
structure Served where
  announced : List Announcement
  response : Response
  after : Shared

def Shared.next (fs : Files) (sh : Shared) : Served :=
  let d := sh.supply.next fs sh.unread
  ⟨d.announced.toList, .drawn d.drawn, ⟨d.supply, d.unread⟩⟩

/-- Draws at most `n` programs, until the supply ends or fails. -/
def Shared.drain (fs : Files) (sh : Shared) : Nat → Served
  | 0 => ⟨[], .programs [], sh⟩
  | n + 1 =>
    let d := sh.supply.next fs sh.unread
    let left : Shared := ⟨d.supply, d.unread⟩
    match d.drawn with
    | .finished => ⟨d.announced.toList, .programs [], left⟩
    | .unreadable e => ⟨d.announced.toList, .drawn (.unreadable e), left⟩
    | .program p =>
      let rest := left.drain fs n
      let response :=
        match rest.response with
        | .programs ps => .programs (p :: ps)
        | other => other
      ⟨d.announced.toList ++ rest.announced, response, rest.after⟩

/-- Answers a request. Every line takes an item of the input at least, so
there are no more programs than items, but one. -/
def Shared.serve (fs : Files) (sh : Shared) : Request → Served
  | .next => sh.next fs
  | .all => sh.drain fs (sh.unread.length + 2)
  | .take n => ⟨[], .items (sh.unread.take n), { sh with unread := sh.unread.drop n }⟩

/-- Answers requests one after the other. -/
def Shared.serveAll (fs : Files) (sh : Shared) : List Request → List Served
  | [] => []
  | r :: rest =>
    let s := sh.serve fs r
    s :: s.after.serveAll fs rest

end Supply
end TapeMachine
