/-
Line ends: a carriage return, alone or before a line feed, ends a line just
as a line feed does.
-/

namespace TapeMachine.Text

/-- Every line end written as one line feed. -/
def unifyNewlines : List Char → List Char
  | [] => []
  | '\r' :: '\n' :: rest => '\n' :: unifyNewlines rest
  | '\r' :: rest => '\n' :: unifyNewlines rest
  | c :: rest => c :: unifyNewlines rest

end TapeMachine.Text
