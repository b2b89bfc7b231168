/-
Latin-1: one byte for each of the first 256 characters, and no way to write
the others.
-/
import TapeMachine.Text.Quoted

namespace TapeMachine.Text.Latin1

def decode (bytes : List UInt8) : List Char := bytes.map Char.ofUInt8

/-- Whether a character has a byte. -/
def fits (c : Char) : Bool := c.toNat < 256

/-- The first stretch of a text that cannot be encoded, from its character at
`start` up to and excluding `stop`. -/
structure Unencodable where
  first : Char
  start : Nat
  stop : Nat
deriving DecidableEq, Repr

def Unencodable.message (e : Unencodable) : String :=
  if e.stop = e.start + 1 then
    s!"'latin-1' codec can't encode character '{String.ofList (escapeCode e.first)}' in position {e.start}"
      ++ ": ordinal not in range(256)"
  else
    s!"'latin-1' codec can't encode characters in position {e.start}-{e.stop - 1}"
      ++ ": ordinal not in range(256)"

def encode (s : List Char) : Except Unencodable (List UInt8) :=
  match s.dropWhile fits with
  | [] => .ok (s.map fun c => UInt8.ofNat c.toNat)
  | c :: rest =>
    let start := (s.takeWhile fits).length
    .error ⟨c, start, start + 1 + (rest.takeWhile (!fits ·)).length⟩

end TapeMachine.Text.Latin1
