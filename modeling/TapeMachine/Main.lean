/-
The command line on a real system. It looks at the files and variables that
an invocation can ask about, takes the turns of a console, prints what they
say, and fetches from standard input what they ask for.
-/
import TapeMachine.CommandLine.Console

namespace TapeMachine.CommandLine

/-! ## Surroundings -/

def pathOf (l : Location) : String := "/" ++ "/".intercalate l

/-- The places that a path passes, its end last. -/
def placesOn (l : Location) : List String → List Location
  | [] => [l]
  | n :: rest =>
    let next := if n = "" || n = "." then l else if n = ".." then l.dropLast else l ++ [n]
    l :: placesOn next rest

/-- The files and folders among some places. -/
def survey (here : Location) (places : List Location) : IO Files := do
  let mut fs : Files := { contents := [], folders := [], here, rooted := true }
  for l in places do
    try
      let bytes ← IO.FS.readBinFile (pathOf l)
      fs := { fs with contents := (l, bytes.toList) :: fs.contents }
    catch _ =>
      if ← ((← IO.currentDir) / pathOf l).isDir then fs := { fs with folders := l :: fs.folders }
  return fs

/-- The file tree as far as the words of a command line and the search for an
env file reach. -/
def surroundings (words : List String) : IO Files := do
  let here := (Path.names (← IO.currentDir).toString).filter (· ≠ "")
  let ofWord (word : String) :=
    let path := Path.normalise word
    if Path.isUsable path then placesOn (if Path.isAbsolute path then [] else here) (Path.names path)
    else []
  survey here ((Files.surrounding here).map (· ++ [".env"]) ++ words.flatMap ofWord)

/-- The environment of the process. -/
def processEnvironment : IO Environment := do
  let bytes ← try IO.FS.readBinFile "/proc/self/environ" catch _ => pure ByteArray.empty
  let text := String.ofList (Text.Utf8.decodeReplacing bytes.toList)
  return .ofList ((text.splitOn "\x00").filterMap fun entry =>
    match entry.splitOn "=" with
    | name :: v :: vs => some (name, "=".intercalate (v :: vs))
    | _ => none)

/-! ## Turns -/

/-- The bytes up to the end of the line, or of the input, behind those fetched. -/
partial def fetchLine (input : IO.FS.Stream) (latestFirst : List UInt8) : IO (List UInt8) := do
  match (← input.read 1).toList with
  | [] => return latestFirst.reverse
  | b :: _ => if b = 0x0a then return (b :: latestFirst).reverse else fetchLine input (b :: latestFirst)

/-- Fetches from standard input, when all that was printed is on the screen. -/
def fetch (w : Want) : IO (List UInt8) := do
  (← IO.getStdout).flush
  let input ← IO.getStdin
  match w with
  | .item => return (← input.read 1).toList
  | .line => fetchLine input []

/-- Takes turns until there is nothing more to do. -/
partial def takeTurns (fs : Files) (s : Setup) (c : Console) : IO (Option Failure) := do
  match c.turn fs s with
  | .stop failure => return failure
  | .print text c =>
    IO.print text
    takeTurns fs s c
  | .ask text w c =>
    IO.print text
    takeTurns fs s (c.feed w (← fetch w))

end TapeMachine.CommandLine

open TapeMachine TapeMachine.CommandLine in
def main (words : List String) : IO UInt32 := do
  let fs ← surroundings words
  let loaded := Settings.load fs none (← processEnvironment)
  IO.eprint loaded.warnings
  match opening loaded.settings words with
  | .stop status output errors =>
    IO.print output
    IO.eprint errors
    match status with
    | .exit code => return code.toUInt32
    | .brokenOff e =>
      IO.eprintln e.message
      return 1
  | .play s c =>
    let failure ← takeTurns fs s c
    (← IO.getStdout).flush
    IO.eprint (failure.elim "" Failure.report)
    return (exitCode failure).toUInt32
