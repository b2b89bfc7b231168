/-
What an invocation of the command line comes to. The programs of a supply are
run one after the other on one machine, up to the first failure
(`Performs`): that is told as scenes, the programs found and all that the
machine did, in order, and it is what an invocation shows and leaves
(`invoke_eq_some_iff`). Lines, reads and pauses take from the one input;
what they have taken and what is left is the input (`Performs.taken`).
-/
import TapeMachine.CommandLine.Invocation
import TapeMachine.Proofs.Lines
import TapeMachine.Proofs.Record

namespace TapeMachine

open Machine Run

/-! ## Supplies and the input -/

namespace Supply

variable {fs : Files} {unread : List UInt8} {supply : Supply}

/-- As often can the next program be asked for, until there is none. -/
def budget (unread : List UInt8) : Supply → Nat
  | .argument _ => 2
  | .lines => unread.length + 1
  | .spent => 1

theorem budget_pos : 0 < supply.budget unread := by
  cases supply with
  | argument | lines => exact Nat.succ_pos _
  | spent => exact Nat.one_pos

theorem exists_succ_of_budget {n : Nat} (h : supply.budget unread ≤ n) : ∃ k, n = k + 1 :=
  Nat.exists_eq_succ_of_ne_zero (Nat.ne_of_gt (Nat.lt_of_lt_of_le budget_pos h))

theorem budget_mono {l l' : List UInt8} (h : l.length ≤ l'.length) : supply.budget l ≤ supply.budget l' := by
  cases supply with
  | argument | spent => exact Nat.le_refl _
  | lines => exact Nat.succ_le_succ h

theorem budget_ofArgument {arg : Option String} : (ofArgument arg).budget unread ≤ unread.length + 2 := by
  cases arg with
  | none => exact Nat.le_succ _
  | some text => exact Nat.le_add_left _ _

/-- All that asking for the next program can be. -/
theorem next_cases (fs : Files) (unread : List UInt8) (supply : Supply) :
    supply.next fs unread = ⟨none, .finished, .spent, unread⟩ ∨
    (∃ a e, supply.next fs unread = ⟨some a, .unreadable e, .spent, unread⟩) ∨
    ∃ a text later line rest, supply.next fs unread = ⟨some a, .program text, later, rest⟩ ∧
      unread = line ++ rest ∧ later.budget rest < supply.budget unread := by
  cases supply with
  | argument text =>
    unfold next
    dsimp only
    split
    · exact .inr (.inr ⟨_, _, _, [], _, rfl, rfl, Nat.lt_succ_self _⟩)
    · split
      · exact .inr (.inr ⟨_, _, _, [], _, rfl, rfl, Nat.lt_succ_self _⟩)
      · exact .inr (.inl ⟨_, _, rfl⟩)
  | lines =>
    cases unread with
    | nil => exact .inl rfl
    | cons b rest =>
      have hlt : (takeLine (b :: rest)).2.length < rest.length + 1 := Nat.lt_succ_of_le length_takeLine_cons
      exact .inr (.inr ⟨_, _, _, _, _, rfl, takeLine_append.symm, Nat.succ_lt_succ hlt⟩)
  | spent => exact .inl rfl

theorem budget_lt_of_next {later : Supply} {rest : List UInt8} {a : Option Announcement} {text : String}
    (h : supply.next fs unread = ⟨a, .program text, later, rest⟩) : later.budget rest < supply.budget unread := by
  rcases next_cases fs unread supply with hn | ⟨b, e, hn⟩ | ⟨b, text', later', line, rest', hn, -, hlt⟩
  · rw [h] at hn
    cases hn
  · rw [h] at hn
    cases hn
  · rw [h] at hn
    cases hn
    exact hlt

end Supply

namespace CommandLine

variable {fs : Files} {s : Setup} {supply : Supply} {m m' m₀ : Machine} {n : Nat}

/-! ## Performances -/

/-- A program found, with what was taken from the input for it, or a thing that
the machine did. -/
inductive Scene
  | drew (line : List UInt8) (a : Announcement)
  | did (e : Event)

namespace Scene

/-- Announcements are shown in debugged runs only. -/
def text (debug : Bool) : Scene → String
  | .drew _ a => if debug then a.message ++ "\n" else ""
  | .did e => Transcript.text [e]

def event? : Scene → Option Event
  | .drew _ _ => none
  | .did e => some e

def taken : Scene → List UInt8
  | .drew line _ => line
  | .did e => Transcript.itemsTaken [e]

end Scene

/-- What one sees of scenes, one after the other. -/
def shown (debug : Bool) (scenes : List Scene) : String := String.join (scenes.map (Scene.text debug))

/-- The programs of a supply, each found when the one before it is complete and
run on the machine that it left, up to the first failure. -/
inductive Performs (fs : Files) (s : Setup) : Supply → Machine → List Scene → Option Failure → Machine → Prop
  | finished {supply later : Supply} {m : Machine} :
    supply.next fs m.unread = ⟨none, .finished, later, m.unread⟩ → Performs fs s supply m [] none m
  | unreadable {supply later : Supply} {m : Machine} {a : Announcement} {e : Unreadable} :
    supply.next fs m.unread = ⟨some a, .unreadable e, later, m.unread⟩ →
    Performs fs s supply m [.drew [] a] (some (.unreadable e)) m
  | failed {supply later : Supply} {m m' : Machine} {a : Announcement} {text : String} {line rest : List UInt8}
      {t : Transcript} {f : Fault} :
    supply.next fs m.unread = ⟨some a, .program text, later, rest⟩ → m.unread = line ++ rest →
    { m with unread := rest }.run s (Program.ofString text) = some ⟨some f, m'⟩ → m'.log = t ++ m.log →
    Performs fs s supply m (.drew line a :: t.reverse.map .did) (some (.fault f)) m'
  | completed {supply later : Supply} {m m' m'' : Machine} {a : Announcement} {text : String}
      {line rest : List UInt8} {t : Transcript} {scenes : List Scene} {failure : Option Failure} :
    supply.next fs m.unread = ⟨some a, .program text, later, rest⟩ → m.unread = line ++ rest →
    { m with unread := rest }.run s (Program.ofString text) = some ⟨none, m'⟩ → m'.log = t ++ m.log →
    Performs fs s later m' scenes failure m'' →
    Performs fs s supply m (.drew line a :: (t.reverse.map .did ++ scenes)) failure m''

theorem shown_cons {debug : Bool} {scene : Scene} {scenes : List Scene} :
    shown debug (scene :: scenes) = scene.text debug ++ shown debug scenes := by
  simp [shown]

theorem shown_append {debug : Bool} {a b : List Scene} : shown debug (a ++ b) = shown debug a ++ shown debug b := by
  simp [shown, String.join_append]

theorem shown_did {debug : Bool} {t : Transcript} : shown debug (t.reverse.map .did) = t.text := by
  induction t with
  | nil => rfl
  | cons e t ih =>
    have ht : Transcript.text (e :: t) = Transcript.text t ++ Transcript.text [e] := Transcript.text_append (t := [e])
    rw [List.reverse_cons, List.map_append, shown_append, ih, ht]
    simp [shown, Scene.text]

theorem events_did {t : Transcript} : (t.reverse.map .did).filterMap Scene.event? = t.reverse := by
  rw [List.filterMap_map]
  exact List.filterMap_some

theorem taken_did {t : Transcript} : (t.reverse.map .did).flatMap Scene.taken = t.itemsTaken := by
  induction t with
  | nil => rfl
  | cons e t ih =>
    have ht : Transcript.itemsTaken (e :: t) = Transcript.itemsTaken t ++ Transcript.itemsTaken [e] :=
      Transcript.itemsTaken_append (t := [e])
    rw [List.reverse_cons, List.map_append, List.flatMap_append, ih, ht]
    simp [Scene.taken]

namespace Performs

variable {scenes : List Scene} {failure : Option Failure}

/-- The machine has noted its part of the scenes, and nothing else. -/
theorem log_eq (h : Performs fs s supply m scenes failure m') :
    m'.log = (scenes.filterMap Scene.event?).reverse ++ m.log := by
  induction h with
  | finished | unreadable => rfl
  | failed _ _ _ ht =>
    rw [ht, List.filterMap_cons_none rfl, events_did, List.reverse_reverse]
  | completed _ _ _ ht _ ih =>
    rw [ih, ht, List.filterMap_cons_none rfl, List.filterMap_append, events_did, List.reverse_append,
      List.reverse_reverse, List.append_assoc]

/-- Of the input there is left what was not taken in any scene. -/
theorem taken (h : Performs fs s supply m scenes failure m') : scenes.flatMap Scene.taken ++ m'.unread = m.unread := by
  induction h with
  | finished | unreadable => rfl
  | failed _ hline hrun ht =>
    rw [List.flatMap_cons, taken_did, List.append_assoc, ← unread_of_run hrun ht, hline]
    rfl
  | completed _ hline hrun ht _ ih =>
    rw [List.flatMap_cons, List.flatMap_append, taken_did, List.append_assoc, List.append_assoc, ih,
      ← unread_of_run hrun ht, hline]
    rfl

end Performs

/-! ## Playing a supply -/

theorem play_finished {later : Supply} {rest : List UInt8}
    (h : supply.next fs m.unread = ⟨none, .finished, later, rest⟩) :
    play fs s supply m (n + 1) = some ⟨"", none, { m.quiet with unread := rest }⟩ := by
  rw [play, h]
  cases s.debug <;> rfl

theorem play_unreadable {later : Supply} {rest : List UInt8} {a : Announcement} {e : Unreadable}
    (h : supply.next fs m.unread = ⟨some a, .unreadable e, later, rest⟩) :
    play fs s supply m (n + 1) =
      some ⟨(Scene.drew [] a).text s.debug, some (.unreadable e), { m.quiet with unread := rest }⟩ := by
  rw [play, h]
  cases s.debug <;> rfl

section

variable {later : Supply} {rest : List UInt8} {a : Announcement} {text : String}
  (h : supply.next fs m.unread = ⟨some a, .program text, later, rest⟩)
include h

theorem play_endless (hrun : { m.quiet with unread := rest }.run s (Program.ofString text) = none) :
    play fs s supply m (n + 1) = none := by
  simp only [play, h, hrun]

theorem play_failed {f : Fault}
    (hrun : { m.quiet with unread := rest }.run s (Program.ofString text) = some ⟨some f, m'⟩) :
    play fs s supply m (n + 1) = some ⟨(Scene.drew [] a).text s.debug ++ m'.log.text, some (.fault f), m'⟩ := by
  simp only [play, h, hrun]
  cases s.debug <;> rfl

theorem play_completed (hrun : { m.quiet with unread := rest }.run s (Program.ofString text) = some ⟨none, m'⟩) :
    play fs s supply m (n + 1) = (play fs s later m' n).map fun p : Played =>
      { p with shown := (Scene.drew [] a).text s.debug ++ m'.log.text ++ p.shown } := by
  simp only [play, h, hrun]
  cases s.debug <;> rfl

end

/-- What is played is told by the scenes. -/
structure Played.Tells (p : Played) (s : Setup) (scenes : List Scene) (failure : Option Failure)
    (m : Machine) : Prop where
  shown : p.shown = CommandLine.shown s.debug scenes
  failure : p.failure = failure
  unread : p.machine.unread = m.unread

theorem unread_eq_of_quiet_eq (h : m₀.quiet = m.quiet) : m₀.unread = m.unread := by
  have hu : m₀.quiet.unread = m.quiet.unread := congrArg Machine.unread h
  exact hu

/-- Programs are played on a machine without its transcript. -/
theorem run_of_quiet_eq {p : Program} {rest : List UInt8} (h : m₀.quiet = m.quiet) :
    { m with unread := rest }.run s p =
      ({ m₀.quiet with unread := rest }.run s p).map fun e : Ending => ⟨e.fault, e.machine.logged m.log⟩ := by
  rw [h]
  exact run_logged (m := { m.quiet with unread := rest }) (l := m.log)

/-- A run leaves a budget for what is to come. -/
theorem budget_of_run {p : Program} {rest : List UInt8} {e : Ending}
    (h : { m with unread := rest }.run s p = some e) : supply.budget e.machine.unread ≤ supply.budget rest := by
  obtain ⟨t, ht⟩ := exists_log_of_run h
  have hu : rest = t.itemsTaken ++ e.machine.unread := unread_of_run h ht
  refine Supply.budget_mono ?_
  rw [hu, List.length_append]
  exact Nat.le_add_left _ _

/-- What is played is a performance. A machine that is played on has lost its
transcript, so it is compared without. -/
theorem exists_performs_of_play {p : Played} (hq : m₀.quiet = m.quiet) (hn : supply.budget m.unread ≤ n)
    (h : play fs s supply m₀ n = some p) :
    ∃ scenes failure m', Performs fs s supply m scenes failure m' ∧ p.Tells s scenes failure m' := by
  -- every program that comes leaves less of the budget for those behind it
  induction n generalizing supply m m₀ p with
  | zero => exact absurd hn (Nat.not_le.2 Supply.budget_pos)
  | succ n ih =>
    have hu := unread_eq_of_quiet_eq hq
    rcases Supply.next_cases fs m.unread supply with
      hd | ⟨a, e, hd⟩ | ⟨a, text, later, line, rest, hd, hline, hlt⟩
    · rw [play_finished (hu ▸ hd)] at h
      cases h
      exact ⟨_, _, _, .finished hd, rfl, rfl, hu⟩
    · rw [play_unreadable (hu ▸ hd)] at h
      cases h
      exact ⟨_, _, _, .unreadable hd, by simp [shown], rfl, hu⟩
    · have hd₀ := hu ▸ hd
      have hrun : { m with unread := rest }.run s (Program.ofString text) = _ := run_of_quiet_eq hq
      cases he : { m₀.quiet with unread := rest }.run s (Program.ofString text) with
      | none =>
        rw [play_endless hd₀ he] at h
        cases h
      | some e =>
        rw [he] at hrun
        obtain ⟨f, m₁⟩ := e
        cases f with
        | some f =>
          rw [play_failed hd₀ he] at h
          cases h
          exact ⟨_, _, _, .failed hd hline hrun rfl, by rw [shown_cons, shown_did]; rfl, rfl, rfl⟩
        | none =>
          rw [play_completed hd₀ he] at h
          obtain ⟨p', hp', rfl⟩ := Option.map_eq_some_iff.1 h
          have hle : later.budget m₁.unread ≤ later.budget rest := budget_of_run he
          have hquiet : m₁.quiet = (m₁.logged m.log).quiet := rfl
          obtain ⟨scenes, failure, m', hper, htells⟩ := ih hquiet
            (Nat.le_trans hle (Nat.le_of_lt_succ (Nat.lt_of_lt_of_le hlt hn))) hp'
          refine ⟨_, _, _, .completed hd hline hrun rfl hper, ?_, htells.failure, htells.unread⟩
          rw [shown_cons, shown_append, shown_did, ← htells.shown, ← String.append_assoc]
          rfl

/-- A performance is what is played. -/
theorem Performs.exists_play {scenes : List Scene} {failure : Option Failure}
    (h : Performs fs s supply m scenes failure m') (hq : m₀.quiet = m.quiet) (hn : supply.budget m.unread ≤ n) :
    ∃ p, play fs s supply m₀ n = some p ∧ p.Tells s scenes failure m' := by
  induction h generalizing m₀ n with
  | finished hd =>
    obtain ⟨n, rfl⟩ := Supply.exists_succ_of_budget hn
    have hu := unread_eq_of_quiet_eq hq
    exact ⟨_, play_finished (hu ▸ hd), rfl, rfl, hu⟩
  | unreadable hd =>
    obtain ⟨n, rfl⟩ := Supply.exists_succ_of_budget hn
    have hu := unread_eq_of_quiet_eq hq
    exact ⟨_, play_unreadable (hu ▸ hd), by simp [shown], rfl, hu⟩
  | failed hd hline hrun ht =>
    obtain ⟨n, rfl⟩ := Supply.exists_succ_of_budget hn
    have hu := unread_eq_of_quiet_eq hq
    rw [run_of_quiet_eq hq] at hrun
    obtain ⟨⟨f, m₁⟩, he, heq⟩ := Option.map_eq_some_iff.1 hrun
    cases heq
    obtain rfl := List.append_cancel_right ht
    refine ⟨_, play_failed (hu ▸ hd) he, ?_, rfl, rfl⟩
    rw [shown_cons, shown_did]
    rfl
  | @completed _ later m₂ _ _ _ _ _ _ _ _ _ hd hline hrun ht hper ih =>
    obtain ⟨n, rfl⟩ := Supply.exists_succ_of_budget hn
    have hu := unread_eq_of_quiet_eq hq
    have hlt := Supply.budget_lt_of_next hd
    rw [run_of_quiet_eq hq] at hrun
    obtain ⟨⟨f, m₁⟩, he, heq⟩ := Option.map_eq_some_iff.1 hrun
    cases heq
    obtain rfl := List.append_cancel_right ht
    have hle : later.budget m₁.unread ≤ _ := budget_of_run he
    have hquiet : m₁.quiet = (m₁.logged m₂.log).quiet := rfl
    obtain ⟨p, hp, htells⟩ := ih (n := n) hquiet
      (Nat.le_trans hle (Nat.le_of_lt_succ (Nat.lt_of_lt_of_le hlt hn)))
    have hplay := play_completed (n := n) (hu ▸ hd) he
    rw [hp] at hplay
    refine ⟨_, hplay, ?_, htells.failure, htells.unread⟩
    rw [shown_cons, shown_append, shown_did, ← htells.shown, ← String.append_assoc]
    rfl

/-! ## Wishes -/

theorem wish_nothing {settings : Settings} : wish settings [] = .ok (.run (.ofSettings settings)) := rfl

/-- A word is the program unless it has a dash in front and something behind that. -/
theorem wish_argument {settings : Settings} {word : String} (h : ∀ c rest, word.toList ≠ '-' :: c :: rest) :
    wish settings [word] = .ok (.run { Choice.ofSettings settings with input := some word }) := by
  have hword : Token.ofWord word = .ok (.positional word) := by
    unfold Token.ofWord
    split
    · next hchars => exact absurd hchars (h _ _)
    · rfl
  have hseparator : word ≠ "--" := by
    rintro rfl
    exact h '-' [] rfl
  rw [wish, Token.ofWords, if_neg hseparator, hword]
  rfl

theorem wish_program {settings : Settings} {word : String} (h : word.toList.head? ≠ some '-') :
    wish settings [word] = .ok (.run { Choice.ofSettings settings with input := some word }) :=
  wish_argument fun _ _ hword => h (by rw [hword]; rfl)

/-! ## Invocations -/

/-- The outcome of a performance: its end, what was shown and what is left. -/
structure Outcome.Tells (o : Outcome) (debug : Bool) (warnings : String) (scenes : List Scene)
    (failure : Option Failure) (m : Machine) : Prop where
  status : o.status = .exit (if failure.isNone then 0 else 1)
  output : o.output = shown debug scenes
  errors : o.errors = warnings ++ failure.elim "" fun f => "\n❌ Error: " ++ f.message ++ "\n"
  unread : o.unread = m.unread

variable {input : List UInt8} {o : Outcome}

theorem Job.carryOut_eq {j : Job} {tape : Tape} (h : Tape.ofLength j.tapeLength = .ok tape) :
    j.carryOut fs input =
      (play fs j.setup (.ofArgument j.input) (.start tape input) (input.length + 2)).map fun p =>
        ⟨.exit (if p.failure.isNone then 0 else 1), p.shown, p.failure.elim "" Failure.report, p.machine.unread⟩ := by
  rw [carryOut, h]
  dsimp only
  congr 1
  funext p
  obtain ⟨shown, failure, m⟩ := p
  cases failure <;> rfl

theorem invoke_eq {env : Environment} {words : List String} {settings : Settings} {c : Choice} {j : Job}
    (hset : (Settings.load fs none env).settings = .ok settings) (hwish : wish settings words = .ok (.run c))
    (hjob : c.job = .ok j) :
    invoke fs env words input = (j.carryOut fs input).map fun o =>
      { o with errors := (Settings.load fs none env).warnings ++ o.errors } := by
  simp only [invoke, plan, hset, hwish, hjob]

/-- An invocation is a performance on one machine, on a blank tape and with all
of the input: it ends if that does, shows its scenes, and leaves what they
have not taken. After a failure nothing more is run, shown or taken, and
the failure is told on the error channel. -/
theorem invoke_eq_some_iff {env : Environment} {words : List String} {settings : Settings} {arg : Option String}
    {debug : Bool} {length window : Int} (hset : (Settings.load fs none env).settings = .ok settings)
    (hwish : wish settings words = .ok (.run ⟨arg, debug, some length, some window⟩)) (hlength : 1 ≤ length) :
    invoke fs env words input = some o ↔
      ∃ scenes failure m,
        Performs fs ⟨debug, if 0 < window then some window.toNat else none, .prompt⟩ (.ofArgument arg)
          (.start (.blank length.toNat (Int.lt_toNat.2 hlength)) input) scenes failure m ∧
        scenes.filterMap Scene.event? = m.log.reverse ∧ scenes.flatMap Scene.taken ++ m.unread = input ∧
        o.Tells debug (Settings.load fs none env).warnings scenes failure m := by
  have htape : Tape.ofLength length = .ok (.blank length.toNat (by omega)) :=
    Tape.ofLength_eq_ok_iff.2 ⟨hlength, rfl⟩
  rw [invoke_eq hset hwish rfl, Job.carryOut_eq htape, Option.map_map, Option.map_eq_some_iff]
  constructor
  · intro h
    obtain ⟨p, hp, rfl⟩ := h
    obtain ⟨scenes, failure, m, hper, htells⟩ := exists_performs_of_play rfl Supply.budget_ofArgument hp
    refine ⟨scenes, failure, m, hper, ?_, hper.taken, ?_⟩
    · rw [hper.log_eq]
      simp [start]
    · obtain ⟨hshown, rfl, hunread⟩ := htells
      exact ⟨rfl, hshown, rfl, hunread⟩
  · intro h
    obtain ⟨scenes, failure, m, hper, -, -, htells⟩ := h
    obtain ⟨p, hp, hshown, rfl, hunread⟩ := hper.exists_play rfl Supply.budget_ofArgument
    refine ⟨p, hp, ?_⟩
    obtain ⟨status, output, errors, unread⟩ := o
    obtain ⟨rfl, rfl, rfl, rfl⟩ := htells
    rw [Function.comp_apply, hshown, hunread]
    rfl

/-- The first line reads the `A` below it, a pause takes the line end behind
that, and the next line is the `]` at which the invocation fails. -/
theorem line_reads_next_line :
    invoke ⟨[], [], [], false⟩ ⟨[]⟩ ["-d", "--tape-length", "3"] [44, 46, 10, 65, 10, 93, 10, 43] =
      some ⟨.exit 1,
        "Interpreting line: ,.\n\nCurrent: ,, next: .\nPtr: 0, value: 65\nPress return to continue.A" ++
          "Interpreting line: ]\n",
        "\n❌ Error: Unmatched ']' at position 0\n", [43]⟩ := by
  let s : Setup := ⟨true, none, .prompt⟩
  let m₁ := (steps s (Program.ofString ",.") 3 (.going 0 (.start (.blank 3 (by decide)) [65, 10, 93, 10, 43]))).machine
  have hfirst : (Machine.start (.blank 3 (by decide)) [65, 10, 93, 10, 43]).run s (Program.ofString ",.") =
      some ⟨none, m₁⟩ := run_eq_some_iff.2 ⟨3, rfl⟩
  have hsecond : { m₁ with unread := [43] }.run s (Program.ofString "]") =
      some ⟨some (.unopened 0), { m₁ with unread := [43], loops := [] }⟩ := run_eq_some_iff.2 ⟨1, rfl⟩
  have hlast : Performs ⟨[], [], [], false⟩ s .lines m₁ [.drew [93, 10] (.line "]")] (some (.fault (.unopened 0)))
      { m₁ with unread := [43], loops := [] } := .failed (t := []) rfl rfl hsecond rfl
  have hper : Performs ⟨[], [], [], false⟩ s .lines
      (.start (.blank 3 (by decide)) [44, 46, 10, 65, 10, 93, 10, 43])
      (.drew [44, 46, 10] (.line ",.") :: (m₁.log.reverse.map .did ++ [.drew [93, 10] (.line "]")]))
      (some (.fault (.unopened 0))) { m₁ with unread := [43], loops := [] } :=
    .completed rfl rfl hfirst (List.append_nil m₁.log).symm hlast
  have hset : (Settings.load ⟨[], [], [], false⟩ none ⟨[]⟩).settings = .ok {} := rfl
  have hwish : wish {} ["-d", "--tape-length", "3"] = .ok (.run ⟨none, true, some 3, some 0⟩) := rfl
  refine (invoke_eq_some_iff hset hwish (by decide)).2 ⟨_, _, _, hper, rfl, rfl, rfl, ?_, rfl, rfl⟩
  decide +kernel

end CommandLine
end TapeMachine
