/-
UTF-8 read byte by byte. A reader is between characters or has one begun, and
each byte completes pieces: a character, or a stretch of bytes that belongs to
none. Overlong forms, surrogates and codes past the last are ruled out by the
bounds of the second byte, so a byte is refused as soon as no character can
come of it; the stretch that is wrong never includes the byte that shows it.

Both decoders are readings of the same pieces: the strict one takes the
characters up to the first wrong stretch and fails there, the lenient one puts
the replacement character in its place.
-/

namespace TapeMachine.Text.Utf8

/-- Why bytes belong to no character. -/
inductive Reason
  | start | continuation | endOfData
deriving DecidableEq, Repr

def Reason.message : Reason → String
  | .start => "invalid start byte"
  | .continuation => "invalid continuation byte"
  | .endOfData => "unexpected end of data"

/-- What a reader makes of one stretch of bytes. -/
inductive Piece
  | char (c : Char)
  | wrong (bytes : List UInt8) (reason : Reason)
deriving DecidableEq, Repr

/-- How many bytes a piece was made of. -/
def Piece.size : Piece → Nat
  | .char c => c.utf8Size
  | .wrong bytes _ => bytes.length

/-- A character begun: its bytes so far, the code they carry, how many bytes
are to come, and the bounds of the next one. -/
structure Begun where
  bytes : List UInt8
  code : Nat
  missing : Nat
  low : UInt8 := 0x80
  high : UInt8 := 0xbf
deriving DecidableEq, Repr

/-- What a byte begins when it stands first and is not a character itself. -/
def lead? (b : UInt8) : Option Begun :=
  if 0xc2 ≤ b && b ≤ 0xdf then some { bytes := [b], code := b.toNat - 0xc0, missing := 1 }
  else if 0xe0 ≤ b && b ≤ 0xef then
    some {
      bytes := [b], code := b.toNat - 0xe0, missing := 2
      low := if b = 0xe0 then 0xa0 else 0x80
      high := if b = 0xed then 0x9f else 0xbf }
  else if 0xf0 ≤ b && b ≤ 0xf4 then
    some {
      bytes := [b], code := b.toNat - 0xf0, missing := 3
      low := if b = 0xf0 then 0x90 else 0x80
      high := if b = 0xf4 then 0x8f else 0xbf }
  else none

/-- A byte met between characters. -/
def first (b : UInt8) : List Piece × Option Begun :=
  if b < 0x80 then ([.char (Char.ofUInt8 b)], none)
  else
    match lead? b with
    | some s => ([], some s)
    | none => ([.wrong [b] .start], none)

/-- One byte: the pieces it completes, and what is begun after it. -/
def next : Option Begun → UInt8 → List Piece × Option Begun
  | none, b => first b
  | some s, b =>
    if s.low ≤ b && b ≤ s.high then
      let code := s.code * 64 + (b.toNat - 0x80)
      if s.missing ≤ 1 then ([.char (Char.ofNat code)], none)
      else ([], some { bytes := s.bytes ++ [b], code, missing := s.missing - 1 })
    else
      let (out, s') := first b
      (.wrong s.bytes .continuation :: out, s')

/-- The pieces of the bytes that follow what is begun. -/
def piecesFrom : Option Begun → List UInt8 → List Piece
  | none, [] => []
  | some s, [] => [.wrong s.bytes .endOfData]
  | s, b :: rest =>
    let (out, s') := next s b
    out ++ piecesFrom s' rest

def pieces (bytes : List UInt8) : List Piece := piecesFrom none bytes

/-- The character that stands for bytes that belong to none. -/
def replacement : Char := Char.ofNat 0xfffd

/-- The lenient decoder. -/
def decodeReplacing (bytes : List UInt8) : List Char :=
  (pieces bytes).map fun
    | .char c => c
    | .wrong _ _ => replacement

/-- The first wrong stretch of bytes, and where it starts. -/
structure Malformed where
  start : Nat
  bytes : List UInt8
  reason : Reason
deriving DecidableEq, Repr

/-- Two lower-case hexadecimal digits. -/
def hexByte (b : UInt8) : String :=
  String.ofList [Nat.digitChar (b.toNat / 16), Nat.digitChar (b.toNat % 16)]

def Malformed.message (e : Malformed) : String :=
  let stretch :=
    match e.bytes with
    | [b] => s!"byte 0x{hexByte b} in position {e.start}"
    | _ => s!"bytes in position {e.start}-{e.start + e.bytes.length - 1}"
  s!"'utf-8' codec can't decode {stretch}: {e.reason.message}"

/-- The characters of pieces that begin at byte `start`, if none is wrong. -/
def charactersFrom (start : Nat) : List Piece → Except Malformed (List Char)
  | [] => .ok []
  | .wrong bytes reason :: _ => .error ⟨start, bytes, reason⟩
  | .char c :: rest => (charactersFrom (start + c.utf8Size) rest).map (c :: ·)

/-- The strict decoder. -/
def decode (bytes : List UInt8) : Except Malformed (List Char) := charactersFrom 0 (pieces bytes)

end TapeMachine.Text.Utf8
