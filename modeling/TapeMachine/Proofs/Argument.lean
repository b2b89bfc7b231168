/-
A command line of one word. A program given there is run as it is
(`argument_is_run_unless_dashed`), unless it begins like an option: with a
dash and something behind it. No such program is ever run, for commands
spell no option and no number; it is refused, or taken for the `--` that
stands before a program.
-/
import Mathlib.Data.List.TakeWhile
import TapeMachine.Proofs.Commands
import TapeMachine.Proofs.Invocation

namespace TapeMachine

open Machine

variable {fs : Files} {env : Environment} {input : List UInt8} {c d : Char} {l : List Char} {word text : String}

/-! ## Nothing set -/

/-- Where there are no files, none is found. -/
theorem Files.read?_eq_none {path : String} (h : fs.contents = []) : fs.read? path = none := by
  have hnone : fs.contentsAt? = fun _ => none := by
    funext l
    simp [contentsAt?, h]
  unfold read?
  split
  · rfl
  · split
    · rfl
    · rw [hnone, Option.bind_fun_none]

theorem EnvFile.load_nothing (h : fs.nearest? ".env" = none) : EnvFile.load fs none env = ⟨env, [], none⟩ := by
  have hchosen : chosen fs none = .ok [] := by
    simp only [chosen, h]
    rfl
  rw [load, hchosen]
  split <;> rfl

/-- Without variables and a file there are the defaults. -/
theorem Settings.load_nothing (hfile : fs.nearest? ".env" = none) (hlength : env.get? "BF_TAPE_LENGTH" = none)
    (hdebug : env.get? "BF_DEBUG" = none) (hwindow : env.get? "BF_MEMORY_WINDOW" = none) :
    Settings.load fs none env = ⟨.ok {}, env, ""⟩ := by
  have hsettings : ofEnvironment env = .ok {} := by
    simp only [ofEnvironment, integer, tapeLengthName, debugName, memoryWindowName, hlength, hdebug, hwindow]
    rfl
  rw [load, EnvFile.load_nothing hfile]
  simp only [hsettings]
  rfl

/-! ## Words of marks -/

theorem mem_of_isMark (h : isMark c = true) : c ∈ ['>', '<', '+', '-', '.', ',', '[', ']', '#'] := by
  simp only [isMark, isCommand, Bool.or_eq_true, List.contains_iff_mem, List.mem_cons, List.not_mem_nil, or_false,
    beq_iff_eq] at h ⊢
  simpa [or_assoc] using h

theorem ne_of_isMark (h : isMark c = true) (hd : isMark d = false) : c ≠ d := by
  rintro rfl
  rw [h] at hd
  cases hd

namespace CommandLine

theorem isDigit_of_isMark (h : isMark c = true) : Token.isDigit c = false := by
  have hall : ['>', '<', '+', '-', '.', ',', '[', ']', '#'].all (!Token.isDigit ·) = true := by decide +kernel
  simpa using List.all_eq_true.1 hall c (mem_of_isMark h)

theorem ofLetter?_of_isMark (h : isMark c = true) : Switch.ofLetter? c = none := by
  have hall : ['>', '<', '+', '-', '.', ',', '[', ']', '#'].all (Switch.ofLetter? · == none) = true := by decide
  simpa using List.all_eq_true.1 hall c (mem_of_isMark h)

theorem isDigits_of_marks (h : ∀ c ∈ l, isMark c = true) : Token.isDigits l = false := by
  cases l with
  | nil => rfl
  | cons c l =>
    have hc : Token.isDigit c = false := isDigit_of_isMark (h c List.mem_cons_self)
    rw [Token.isDigits, List.dropWhile_cons_of_neg (by simp [hc])]
    split
    · next heq => cases heq
    · simp [hc]
    · rfl

/-- Not even one that is all points and dashes is a number. -/
theorem isNegativeNumber_of_marks (h : ∀ c ∈ l, isMark c = true) : Token.isNegativeNumber ('-' :: l) = false := by
  have hdrop : l.dropWhile Token.isDigit = l := by
    cases l with
    | nil => rfl
    | cons c l => exact List.dropWhile_cons_of_neg (by simp [isDigit_of_isMark (h c List.mem_cons_self)])
  simp only [Token.isNegativeNumber, isDigits_of_marks h, Bool.false_or, hdrop]
  split
  · exact isDigits_of_marks fun c hc => h c (List.mem_cons_of_mem _ hc)
  · rfl

theorem ofShort_of_isMark (h : isMark c = true) : Token.ofShort ('-' :: c :: l) = none := by
  simp [Token.ofShort, ofLetter?_of_isMark h]

theorem ofLong_of_marks (hne : l ≠ []) (h : ∀ c ∈ l, isMark c = true) : Token.ofLong ('-' :: '-' :: l) = .ok none := by
  have hcut : Token.cutAtEquals ('-' :: '-' :: l) = ('-' :: '-' :: l, none) := by
    have hdrop : ('-' :: '-' :: l).dropWhile (· ≠ '=') = [] := by
      rw [List.dropWhile_eq_nil_iff]
      intro c hc
      simp only [List.mem_cons] at hc
      rcases hc with rfl | rfl | hc
      · rfl
      · rfl
      · exact decide_eq_true (ne_of_isMark (h c hc) (by decide))
    rw [Token.cutAtEquals, hdrop]
  have hnone : (Switch.all.filter fun s => ('-' :: '-' :: l).isPrefixOf s.long.toList) = [] := by
    obtain ⟨c, l, rfl⟩ := List.exists_cons_of_ne_nil hne
    have hc {d : Char} (hd : isMark d = false) : c ≠ d := ne_of_isMark (h c List.mem_cons_self) hd
    have hletters : c ≠ 'h' ∧ c ≠ 'd' ∧ c ≠ 't' ∧ c ≠ 'm' :=
      ⟨hc (by decide), hc (by decide), hc (by decide), hc (by decide)⟩
    simp [Switch.all, Switch.long, List.isPrefixOf, hletters]
  rw [Token.ofLong, hcut]
  simp only [hnone]

/-- The word begins as options do. -/
def Dashed (word : String) : Prop := ∃ c rest, word.toList = '-' :: c :: rest

/-- A word of marks that begins like an option is none. -/
theorem ofWord_of_dashed (hword : Dashed word) (hne : word ≠ "--") (h : ∀ c ∈ word.toList, isMark c = true) :
    Token.ofWord word = .ok (.unknown word) := by
  obtain ⟨c, l, hword⟩ := hword
  rw [hword] at h
  obtain ⟨-, hrest⟩ := List.forall_mem_cons.1 h
  obtain ⟨hc, hl⟩ := List.forall_mem_cons.1 hrest
  have hspace : ' ' ∉ l := fun hmem => absurd (hl ' ' hmem) (by decide)
  have hother : ¬ (Token.isNegativeNumber ('-' :: c :: l) || l.contains ' ' || decide (c = ' ')) = true := by
    simp [isNegativeNumber_of_marks hrest, hspace, ne_of_isMark hc (d := ' ') (by decide)]
  simp only [Token.ofWord, hword, if_neg hother]
  split
  · next hdash =>
    subst hdash
    have hname : l ≠ [] := by
      rintro rfl
      exact hne (String.toList_inj.1 hword)
    rw [ofLong_of_marks hname hl]
    rfl
  · rw [ofShort_of_isMark hc]
    rfl

/-! ## The one program -/

theorem next_given {unread : List UInt8} (h : fs.read? (Path.normalise text) = none) :
    Supply.next fs unread (.argument text) = ⟨some (.given text), .program text, .spent, unread⟩ := by
  unfold Supply.next
  dsimp only
  rw [h]

theorem carryOut_argument {j : Job} {tape : Tape} (htape : Tape.ofLength j.tapeLength = .ok tape)
    (hinput : j.input = some text) (hdebug : j.debug = false) (hfile : fs.read? (Path.normalise text) = none) :
    j.carryOut fs input = ((start tape input).run j.setup (Program.ofString text)).map fun e =>
      ⟨.exit (if e.fault.isNone then 0 else 1), e.machine.log.text, e.fault.elim "" fun f => Failure.report (.fault f),
        e.machine.unread⟩ := by
  have hnext : Supply.next fs (start tape input).unread (.argument text) = _ := next_given hfile
  have hsilent : (Scene.drew [] (.given text)).text j.setup.debug = "" := by
    rw [Job.setup, hdebug]
    rfl
  rw [Job.carryOut_eq htape, hinput, Supply.ofArgument]
  cases hrun : (start tape input).run j.setup (Program.ofString text) with
  | none => rw [play_endless hnext hrun]; rfl
  | some e =>
    obtain ⟨f, m⟩ := e
    cases f with
    | some f =>
      rw [play_failed hnext hrun, hsilent, String.empty_append]
      rfl
    | none =>
      rw [play_completed hnext hrun, hsilent, String.empty_append, play_finished rfl]
      simp

theorem wish_of_dashed {settings : Settings} (hword : Dashed word) (hne : word ≠ "--")
    (h : ∀ c ∈ word.toList, isMark c = true) : wish settings [word] = .error (.unrecognized [word]) := by
  rw [wish, Token.ofWords, if_neg hne, ofWord_of_dashed hword hne h]
  rfl

theorem invoke_of_usageError {settings : Settings} {words : List String} {e : UsageError}
    (hload : Settings.load fs none env = ⟨.ok settings, env, ""⟩) (hwish : wish settings words = .error e) :
    invoke fs env words input =
      some ⟨.exit 2, "", usage ++ programName ++ ": error: " ++ e.message ++ "\n", input⟩ := by
  simp only [invoke, plan, hload, hwish, Option.map_some, String.empty_append]

theorem message_unrecognized : (UsageError.unrecognized [word]).message = "unrecognized arguments: " ++ word := by
  unfold UsageError.message
  dsimp only
  rw [String.intercalate_singleton]

/-- A program given as the one word of a command line, with nothing set, is run
as it is: it names no file, so it is interpreted on a plain machine with the
default tape and all of the input. What that writes is shown, and the status
tells whether the program was complete. But a program that begins with a
dash and goes on is taken for an option: it is not interpreted but refused,
with nothing shown and no input taken. `--` is refused in its own way: it is
dropped, and programs are read from the input. -/
theorem argument_is_run_unless_dashed (h : ∀ c ∈ word.toList, isMark c = true)
    (hfile : fs.read? (Path.normalise word) = none) (hdotenv : fs.nearest? ".env" = none)
    (hlength : env.get? "BF_TAPE_LENGTH" = none) (hdebug : env.get? "BF_DEBUG" = none)
    (hwindow : env.get? "BF_MEMORY_WINDOW" = none) (input : List UInt8) :
    (¬ Dashed word → invoke fs env [word] input =
      ((start (.blank 40000 (by decide)) input).run {} (Program.ofString word)).map fun e =>
        ⟨.exit (if e.fault.isNone then 0 else 1), e.machine.log.text,
          e.fault.elim "" fun f => "\n❌ Error: " ++ f.message ++ "\n", e.machine.unread⟩) ∧
    (Dashed word → word ≠ "--" → invoke fs env [word] input =
      some ⟨.exit 2, "", usage ++ "brainfuck: error: unrecognized arguments: " ++ word ++ "\n", input⟩) ∧
    (word = "--" → invoke fs env [word] input = invoke fs env [] input) := by
  have hload : Settings.load fs none env = ⟨.ok {}, env, ""⟩ := Settings.load_nothing hdotenv hlength hdebug hwindow
  refine ⟨fun hword => ?_, fun hword hne => ?_, ?_⟩
  · have hset : (Settings.load fs none env).settings = .ok {} := by rw [hload]
    have hwish : wish {} [word] = _ := wish_argument fun c rest hc => hword ⟨c, rest, hc⟩
    rw [invoke_eq hset hwish rfl, carryOut_argument rfl rfl rfl hfile, Option.map_map, hload]
    refine Option.map_congr fun e _ => ?_
    simp only [Function.comp_apply, String.empty_append]
    rfl
  · have hprogram : programName ++ ": error: " ++ "unrecognized arguments: " =
        "brainfuck: error: unrecognized arguments: " := by decide
    rw [invoke_of_usageError hload (wish_of_dashed hword hne h), message_unrecognized, ← hprogram]
    simp only [String.append_assoc]
  · rintro rfl
    rfl

/-- A dash is a program like any other where nothing stands behind it. -/
theorem lone_dash_is_run :
    (invoke ⟨[], [], [], false⟩ {} ["-"] [0x2e]).map (fun o => (o.status, o.errors, o.unread)) =
        some (.exit 0, "", [0x2e]) ∧
      invoke ⟨[], [], [], false⟩ {} ["-."] [0x2e] =
        some ⟨.exit 2, "", usage ++ "brainfuck: error: unrecognized arguments: -.\n", [0x2e]⟩ := by
  constructor
  · have hdashed : ¬ Dashed "-" := by
      rintro ⟨c, rest, h⟩
      cases h
    have hrun : (start (.blank 40000 (by decide)) [0x2e]).run {} (Program.ofString "-") = some ⟨none, _⟩ :=
      run_eq_some_iff.2 ⟨2, rfl⟩
    have hmarks : ∀ c ∈ "-".toList, isMark c = true := List.all_eq_true.1 (by decide)
    rw [(argument_is_run_unless_dashed hmarks (Files.read?_eq_none rfl) rfl rfl rfl rfl [0x2e]).1 hdashed, hrun]
    rfl
  · have hmarks : ∀ c ∈ "-.".toList, isMark c = true := List.all_eq_true.1 (by decide)
    exact (argument_is_run_unless_dashed hmarks (Files.read?_eq_none rfl) rfl rfl rfl rfl [0x2e]).2.1 ⟨'.', [], rfl⟩ (by decide)

/-- `-.` is a complete program, which counts down from 0 and writes the character
255, but an invocation does not run it. -/
theorem dashed_program_is_not_run :
    ((start (.blank 40000 (by decide)) []).run {} (Program.ofString "-.")).map
        (fun e => (e.fault, e.machine.log.text, e.machine.unread)) = some (none, "ÿ", []) ∧
      (invoke ⟨[], [], [], false⟩ {} ["-."] []).map (fun o => (o.status, o.output, o.unread)) =
        some (.exit 2, "", []) := by
  constructor
  · have hrun : (start (.blank 40000 (by decide)) []).run {} (Program.ofString "-.") = some ⟨none, _⟩ :=
      run_eq_some_iff.2 ⟨3, rfl⟩
    rw [hrun]
    decide +kernel
  · decide +kernel

end CommandLine
end TapeMachine
