/-
The input of a run: bytes, or a text of which each character is read as its
code modulo 256. A machine sees no more of it than these values in order.
-/

namespace TapeMachine

inductive Input
  | bytes (b : List UInt8)
  | text (s : List Char)
deriving DecidableEq, Repr

/-- The values that reads of this input give, one for each item. -/
def Input.items : Input → List UInt8
  | .bytes b => b
  | .text s => s.map fun c => UInt8.ofNat c.toNat

end TapeMachine
