/-
The transcript of a machine: everything it did to the world outside, as
events in order. What was printed, on which channel, and which input was
taken are all readings of this one record.
-/
import TapeMachine.Report

namespace TapeMachine

/-- Where text goes: a program's output, or messages about its run. -/
inductive Channel
  | output | diagnostics
deriving DecidableEq, Repr

/-- A machine as an observer sees it during a pause. -/
structure Snapshot where
  tape : Tape
  /-- The entered loops, outermost first. -/
  loops : List Nat
  steps : Nat
deriving DecidableEq, Repr

namespace Snapshot

def head (s : Snapshot) : Nat := s.tape.head

def value (s : Snapshot) : UInt8 := s.tape.cell

end Snapshot

/-- One thing a machine does to the world outside. -/
inductive Event
  /-- A character written by the program. -/
  | put (c : Char)
  /-- An attempt of the program to read; `none` where the input has ended. -/
  | read (item : Option UInt8)
  /-- The complaint about a read that found nothing. -/
  | noInput
  /-- A state report that was asked for. -/
  | state (r : Report)
  /-- The report after a step: the character done, the one that is next, and
  the state between them. -/
  | step (current next : Char) (r : Report)
  | prompt
  | flush (c : Channel)
  /-- The item of input taken as the acknowledgement of a pause. -/
  | acknowledge (item : Option UInt8)
  /-- A pause that an observer noted. -/
  | observed (s : Snapshot)
deriving DecidableEq, Repr

/-- What an event prints, and where. -/
def Event.printed : Event → Option (Channel × String)
  | .put c => some (.output, c.toString)
  | .noInput => some (.diagnostics, "Error reading character\n")
  | .state r => some (.diagnostics, r.text)
  | .step current next r =>
    some (.diagnostics,
      "\nCurrent: " ++ current.toString ++ ", next: " ++ next.toString ++ "\n" ++ r.text)
  | .prompt => some (.diagnostics, "Press return to continue.")
  | _ => none

namespace Event

variable {c d : Char} {r : Report}

@[simp] theorem printed_put : (put c).printed = some (.output, c.toString) := rfl

@[simp] theorem printed_noInput : noInput.printed = some (.diagnostics, "Error reading character\n") := rfl

@[simp] theorem printed_state : (state r).printed = some (.diagnostics, r.text) := rfl

@[simp] theorem printed_step : (step c d r).printed = some (.diagnostics,
    "\nCurrent: " ++ c.toString ++ ", next: " ++ d.toString ++ "\n" ++ r.text) := rfl

@[simp] theorem printed_prompt : prompt.printed = some (.diagnostics, "Press return to continue.") := rfl

@[simp] theorem printed_read {item : Option UInt8} : (read item).printed = none := rfl

@[simp] theorem printed_acknowledge {item : Option UInt8} : (acknowledge item).printed = none := rfl

@[simp] theorem printed_flush {c : Channel} : (flush c).printed = none := rfl

@[simp] theorem printed_observed {s : Snapshot} : (observed s).printed = none := rfl

end Event

/-- Events, latest first. -/
abbrev Transcript := List Event

namespace Transcript

/-- The pieces of text printed, in order. -/
def printed (t : Transcript) : List (Channel × String) := t.reverse.filterMap Event.printed

/-- The text printed on one channel. -/
def textOn (t : Transcript) (c : Channel) : String :=
  String.join ((t.printed.filter (·.1 = c)).map (·.2))

/-- The text of both channels in the order it was printed, as a reader sees
it where they share one screen. -/
def text (t : Transcript) : String := String.join (t.printed.map (·.2))

/-- The pauses an observer noted, in order. -/
def observations (t : Transcript) : List Snapshot :=
  t.reverse.filterMap fun
    | .observed s => some s
    | _ => none

/-- The items of input the program obtained, in order. -/
def itemsRead (t : Transcript) : List UInt8 :=
  t.reverse.filterMap fun
    | .read item => item
    | _ => none

/-- All items of input taken, by the program and by the pauses, in order. -/
def itemsTaken (t : Transcript) : List UInt8 :=
  t.reverse.filterMap fun
    | .read item => item
    | .acknowledge item => item
    | _ => none

/-- A transcript at the grain of calls on streams: text printed piece by
piece on one channel is one entry. -/
inductive Entry
  | text (c : Channel) (s : String)
  | flush (c : Channel)
  | read (obtained : Bool)
  | pause
deriving DecidableEq, Repr

/-- One more event after the entries so far, which stand latest first. -/
def Entry.add (entries : List Entry) (e : Event) : List Entry :=
  match e.printed with
  | some (c, s) =>
    match entries with
    | .text c' s' :: rest => if c' = c then .text c (s' ++ s) :: rest else .text c s :: entries
    | _ => .text c s :: entries
  | none =>
    match e with
    | .flush c => .flush c :: entries
    | .read item => .read item.isSome :: entries
    | .acknowledge item => .read item.isSome :: entries
    | .observed _ => .pause :: entries
    | _ => entries

/-- The entries of a transcript, in order. -/
def entries (t : Transcript) : List Entry :=
  (t.foldr (fun e es => Entry.add es e) []).reverse

/-! ## Readings of a longer transcript -/

theorem printed_append {t u : Transcript} : printed (t ++ u) = printed u ++ printed t := by
  simp [printed]

theorem itemsRead_append {t u : Transcript} : itemsRead (t ++ u) = itemsRead u ++ itemsRead t := by
  simp [itemsRead]

theorem itemsTaken_append {t u : Transcript} : itemsTaken (t ++ u) = itemsTaken u ++ itemsTaken t := by
  simp [itemsTaken]

theorem textOn_append {t u : Transcript} {c : Channel} : textOn (t ++ u) c = textOn u c ++ textOn t c := by
  simp [textOn, printed_append, String.join_append]

theorem text_append {t u : Transcript} : text (t ++ u) = text u ++ text t := by
  simp [text, printed_append, String.join_append]

/-- Every reading that keeps what is printed on a channel tells it. -/
theorem textOn_eq_of_reading_eq {t u : Transcript} {c : Channel} {f : Event → Option (Channel × String)}
    (h : ∀ e, (f e).filter (·.1 = c) = e.printed.filter (·.1 = c))
    (heq : t.reverse.filterMap f = u.reverse.filterMap f) : t.textOn c = u.textOn c := by
  have hread (v : Transcript) : v.textOn c = String.join (((v.reverse.filterMap f).filter (·.1 = c)).map (·.2)) := by
    rw [textOn, printed, List.filter_filterMap, List.filter_filterMap]
    simp only [h]
  rw [hread, hread, heq]

end Transcript
end TapeMachine
