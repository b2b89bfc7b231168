/-
References in the values of an env file: `${NAME}` and `${NAME:-default}`
stand for the value of a variable, of an earlier key of the file where there
is no such variable, and else for the default or nothing.
-/
import TapeMachine.Environment

namespace TapeMachine.EnvFile

/-- A reference: its name, its default, and the text after it. -/
structure Reference where
  name : List Char
  default : List Char
  after : List Char

/-- The reference that stands at the front of a text. -/
def reference? (s : List Char) : Option Reference :=
  match s with
  | '$' :: '\x7b' :: rest =>
    let isName (c : Char) : Bool := c ≠ '\x7d' && c ≠ ':'
    let name := rest.takeWhile isName
    match rest.dropWhile isName with
    | '\x7d' :: after => some ⟨name, [], after⟩
    | ':' :: '-' :: rest =>
      match rest.dropWhile (· ≠ '\x7d') with
      | _ :: after => some ⟨name, rest.takeWhile (· ≠ '\x7d'), after⟩
      | [] => none
    | _ => none
  | _ => none

/-- Replaces the references in a text, `fuel` characters and references at
most. -/
def expandWith (value : Reference → List Char) (s : List Char) : Nat → List Char
  | 0 => []
  | fuel + 1 =>
    match reference? s with
    | some r => value r ++ expandWith value r.after fuel
    | none =>
      match s with
      | [] => []
      | c :: rest => c :: expandWith value rest fuel

/-- Keys of a file and their values, in the order of the keys' first
appearance; `none` is a key without a value. -/
abbrev Bindings := List (String × Option String)

/-- A key bound, at its old place if it has one. -/
def Bindings.put (bs : Bindings) (key : String) (value : Option String) : Bindings :=
  if bs.any (·.1 = key) then bs.map fun b => if b.1 = key then (key, value) else b
  else bs ++ [(key, value)]

/-- What a reference stands for after some bindings have been made. -/
def resolve (env : Environment) (bs : Bindings) (r : Reference) : List Char :=
  let name := String.ofList r.name
  match env.get? name with
  | some v => v.toList
  | none =>
    match bs.lookup name with
    | some v => (v.getD "").toList
    | none => r.default

/-- A value with its references replaced. -/
def expand (env : Environment) (bs : Bindings) (value : String) : String :=
  String.ofList (expandWith (resolve env bs) value.toList (value.toList.length + 1))

/-- The bindings of a file, made one after the other. -/
def bind (env : Environment) (statements : List (String × Option String)) : Bindings :=
  statements.foldl (fun bs (key, value) => bs.put key (value.map (expand env bs))) []

end TapeMachine.EnvFile
