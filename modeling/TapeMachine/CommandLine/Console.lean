/-
Playing step by step, with input that is fetched when it is wanted. A step is
tried with the input that is there. If it reads past that, what it did before
that read is shown, more is fetched, and the step is tried again: it does the
same up to that place, which is not shown a second time. So what is printed is
on the screen before anybody is asked for input.
-/
import TapeMachine.CommandLine.Invocation

namespace TapeMachine

/-- The machine with more input behind what it has. -/
def Machine.feed (m : Machine) (more : List UInt8) : Machine := { m with unread := m.unread ++ more }

/-- Whether an event is a read that found nothing. -/
def Event.isStarved : Event → Bool
  | .read none | .acknowledge none => true
  | _ => false

namespace CommandLine

/-! ## Steps -/

/-- Where playing stands. -/
inductive Stage
  /-- The next program is to be asked for. -/
  | between (supply : Supply) (m : Machine)
  /-- A program is about to do the character at the cursor. -/
  | within (supply : Supply) (p : Program) (cursor : Nat) (m : Machine)
  | stopped (failure : Option Failure) (m : Machine)

namespace Stage

/-- The stage after a run that has ended. -/
def after (supply : Supply) : Option Fault → Machine → Stage
  | none, m => .between supply m
  | some f, m => .stopped (some (.fault f)) m

def feed (more : List UInt8) : Stage → Stage
  | between supply m => between supply (m.feed more)
  | within supply p i m => within supply p i (m.feed more)
  | stopped failure m => stopped failure (m.feed more)

/-- Whether a line is asked for, and no whole line is there. -/
def lacksLine : Stage → Bool
  | between .lines m => !m.unread.contains 0x0a
  | _ => false

end Stage

/-- A step of playing: what is announced, what the machine does, in order, and
where that leads. -/
structure Advance where
  announced : String := ""
  events : List Event := []
  stage : Stage

def told (events : List Event) : String := Transcript.text events.reverse

namespace Advance

/-- The text of a step of which so many events are on the screen already. -/
def textFrom (a : Advance) (n : Nat) : String := a.announced ++ told (a.events.drop n)

/-- The events before the first read that found nothing. -/
def before (a : Advance) : List Event := a.events.takeWhile (!·.isStarved)

end Advance

def Stage.advance (fs : Files) (s : Setup) : Stage → Advance
  | between supply m =>
    let d := supply.next fs m.unread
    let m := { m.quiet with unread := d.unread }
    let announced := d.shown s.debug
    match d.drawn with
    | .finished => { announced, stage := stopped none m }
    | .unreadable e => { announced, stage := stopped (some (.unreadable e)) m }
    | .program text => { announced, stage := within d.supply (Program.ofString text) 0 { m with loops := [] } }
  | within supply p i m =>
    match Run.step s p (.going i m.quiet) with
    | .going j m => { events := m.log.reverse, stage := within supply p j m.quiet }
    | .ended fault m => { events := m.log.reverse, stage := after supply fault m.quiet }
  | stopped failure m => { stage := stopped failure m }

/-! ## Turns -/

/-- What has to be fetched. -/
inductive Want
  | item
  /-- All up to the next line feed. -/
  | line

/-- Whether there is no more input behind what was fetched. -/
def Want.isLast : Want → List UInt8 → Bool
  | item, bytes => bytes.isEmpty
  | line, bytes => bytes.getLast? != some 0x0a

/-- Playing on a console: where it stands on the input fetched until now,
whether that is all the input there is, and how many events of the next step
are on the screen already. -/
structure Console where
  stage : Stage
  ended : Bool := false
  shown : Nat := 0

/-- What is to be done at a console. -/
inductive Turn
  | stop (failure : Option Failure)
  | print (text : String) (c : Console)
  /-- To show the text, and then to fetch more input. -/
  | ask (text : String) (w : Want) (c : Console)

namespace Console

def turn (fs : Files) (s : Setup) (c : Console) : Turn :=
  match c.stage with
  | .stopped failure _ => .stop failure
  | stage =>
    if !c.ended && stage.lacksLine then .ask "" .line c
    else
      let a := stage.advance fs s
      if !c.ended && a.before.length < a.events.length then
        .ask (told (a.before.drop c.shown)) .item { c with shown := a.before.length }
      else .print (a.textFrom c.shown) { stage := a.stage, ended := c.ended }

/-- The console after something was fetched. -/
def feed (c : Console) (w : Want) (bytes : List UInt8) : Console :=
  { c with stage := c.stage.feed bytes, ended := w.isLast bytes }

end Console

/-! ## Invocations -/

/-- How an invocation begins: it stops at once, or programs are played. -/
inductive Opening
  | stop (status : Status) (output errors : String)
  | play (s : Setup) (c : Console)

def opening (settings : Except SettingsError Settings) (words : List String) : Opening :=
  match plan settings words with
  | .stop status output errors => .stop status output errors
  | .run j =>
    match Tape.ofLength j.tapeLength with
    | .error e => .stop (.exit 1) "" (Failure.report (.tape e))
    | .ok tape => .play j.setup { stage := .between (.ofArgument j.input) (.start tape []) }

/-- The exit status after programs were played. -/
def exitCode (failure : Option Failure) : Nat := if failure.isNone then 0 else 1

end CommandLine
end TapeMachine
