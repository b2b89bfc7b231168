/-
White space: the characters that count as blank, and texts cut free of them.
-/

namespace TapeMachine.Text

/-- The four separators of the control characters. -/
def isSeparator (c : Char) : Bool := 0x1c ≤ c.toNat && c.toNat ≤ 0x1f

/-- The blank characters of Unicode, the control separators among them. -/
def isBlank (c : Char) : Bool :=
  let n := c.toNat
  (9 ≤ n && n ≤ 13) || isSeparator c || n = 0x20 || n = 0x85 || n = 0xa0 || n = 0x1680
    || (0x2000 ≤ n && n ≤ 0x200a) || n = 0x2028 || n = 0x2029 || n = 0x202f || n = 0x205f || n = 0x3000

/-- The end of a text cut off as far as it satisfies `p`. -/
def dropEndWhile (p : Char → Bool) (s : List Char) : List Char :=
  (s.reverse.dropWhile p).reverse

/-- Both ends of a text cut off as far as they satisfy `p`. -/
def trim (p : Char → Bool) (s : List Char) : List Char := dropEndWhile p (s.dropWhile p)

end TapeMachine.Text
