/-
Programs fed line by line. What an invocation shows of programs without `,`
is what they do to the tape one after the other (`play_lines`), and a file
that holds all of the lines is a program that does the same
(`lines_run_like_file`).
-/
import TapeMachine.Proofs.Decoding
import TapeMachine.Proofs.Effects
import TapeMachine.Proofs.Invocation

namespace TapeMachine

open Machine Run Program Text

variable {fs : Files} {s : Setup} {supply later : Supply} {l line rest : List UInt8} {b : UInt8} {m : Machine}
  {t : List Char} {tape : Tape} {n : Nat}

/-! ## Lines -/

theorem cutAfter_takeLine :
    cutAfter 0x0a (b :: l) = (Supply.takeLine (b :: l)).1 :: cutAfter 0x0a (Supply.takeLine (b :: l)).2 := by
  induction l generalizing b with
  | nil =>
    unfold cutAfter Supply.takeLine
    split <;> rfl
  | cons c l ih =>
    rw [cutAfter, Supply.takeLine]
    by_cases hb : b = 0x0a
    · rw [if_pos hb, if_pos hb]
    · rw [if_neg hb, if_neg hb, ih]

theorem flatten_cutAfter {α : Type} [DecidableEq α] {x : α} {u : List α} : (cutAfter x u).flatten = u := by
  induction u with
  | nil => rfl
  | cons a u ih =>
    unfold cutAfter
    split
    · exact congrArg (a :: ·) ih
    · split
      · next h =>
        rw [h] at ih
        exact congrArg (a :: ·) ih
      · next h =>
        rw [h] at ih
        exact congrArg (a :: ·) ih

/-! ## Programs from bytes -/

section

variable (h : t.filter isMark = marksOf l)
include h

theorem balanced_of_bytes (hl : Balanced (Latin1.decode l)) : Balanced t := by
  rw [← balanced_filter_isMark, h, ← marks_latin1]
  exact balanced_filter_isMark.2 hl

theorem get_not_mem_of_bytes (hl : 0x2c ∉ l) : ',' ∉ t := by
  intro hmem
  have hmark : ',' ∈ marksOf l := h ▸ List.mem_filter.2 ⟨hmem, rfl⟩
  obtain ⟨b, hb, hchar⟩ := List.mem_map.1 hmark
  obtain rfl : b = 0x2c := ofUInt8_inj.1 hchar
  exact hl (List.mem_filter.1 hb).1

end

/-- The program on a line. -/
def lineProgram (line : List UInt8) : Program := Program.ofString (Supply.lineText line)

theorem marks_lineProgram : (lineProgram line).toList.filter isMark = marksOf line := marks_lineText

theorem get_not_mem_lineProgram (h : 0x2c ∉ line) : ',' ∉ (lineProgram line).toList :=
  get_not_mem_of_bytes marks_lineProgram h

/-- A file that holds lines does what they do one after the other. -/
theorem effect_eq_effects_lines {text : String} (hs : s.debug = false)
    (hlines : ∀ line ∈ cutAfter 0x0a l, Balanced (Latin1.decode line) ∧ 0x2c ∉ line)
    (htext : Supply.fileText l = .ok text) :
    (Program.ofString text).effect s tape = effects s ((cutAfter 0x0a l).map lineProgram) tape := by
  have hprograms (p : Program) (hp : p ∈ (cutAfter 0x0a l).map lineProgram) :
      Balanced p.toList ∧ ',' ∉ p.toList := by
    obtain ⟨line, hline, rfl⟩ := List.mem_map.1 hp
    obtain ⟨hbalanced, hget⟩ := hlines line hline
    exact ⟨balanced_of_bytes marks_lineProgram hbalanced, get_not_mem_lineProgram hget⟩
  rw [← effect_flatten hs hprograms]
  refine (effect_eq_of_marks hs (.flatten (List.forall_mem_map.2 fun p hp => (hprograms p hp).1)) ?_).symm
  calc ((((cutAfter 0x0a l).map lineProgram).map Array.toList).flatten).filter isMark
      = ((cutAfter 0x0a l).map marksOf).flatten := by
        rw [List.filter_flatten, List.map_map, List.map_map]
        exact congrArg List.flatten (List.map_congr_left fun line _ => marks_lineProgram)
    _ = marksOf l := by rw [← marksOf_flatten, flatten_cutAfter]
    _ = text.toList.filter isMark := (marks_fileText htext).symm

/-! ## What is shown -/

/-- How an effect ends an invocation and what is shown of it. -/
def Effect.told (e : Effect) : Option CommandLine.Failure × String := (e.fault.map .fault, e.text)

theorem Effect.behind_empty {e : Effect} : e.behind "" = e := by
  rw [behind, String.empty_append]

namespace CommandLine

def Played.told (p : Played) : Option Failure × String := (p.failure, p.shown)

/-- A program is played as its effect and what is played after it. -/
theorem play_program {a : Announcement} {text : String} {next : Tape → Option Effect} (hs : s.debug = false)
    (h : supply.next fs m.unread = ⟨some a, .program text, later, rest⟩)
    (hget : ',' ∉ (Program.ofString text).toList)
    (hnext : ∀ m' : Machine, m'.unread = rest →
      (play fs s later m' n).map Played.told = (next m'.tape).map Effect.told) :
    (play fs s supply m (n + 1)).map Played.told =
      (((Program.ofString text).effect s m.tape).bind (·.andThen next)).map Effect.told := by
  have hsilent : (Scene.drew [] a).text s.debug = "" := by
    rw [hs]
    rfl
  have heffect : ({ m.quiet with unread := rest }.run s (Program.ofString text)).map Ending.effect =
      (Program.ofString text).effect s m.tape := by
    rw [map_effect_run hs hget]
    exact (congrArg (Option.map · _) (funext fun e => Effect.behind_empty)).trans (Option.map_id_apply ..)
  rw [← heffect]
  cases hrun : { m.quiet with unread := rest }.run s (Program.ofString text) with
  | none =>
    rw [play_endless h hrun]
    rfl
  | some e =>
    obtain ⟨f, m'⟩ := e
    cases f with
    | some f =>
      rw [play_failed h hrun, hsilent, String.empty_append]
      rfl
    | none =>
      rw [play_completed h hrun, hsilent, String.empty_append, Option.map_some, Option.bind_some]
      have hlater := hnext m' (unread_of_run_without_get hs hget hrun)
      -- what was shown before stands in front of either side
      have hbehind := congrArg (Option.map fun x : Option Failure × String => (x.1, m'.log.text ++ x.2)) hlater
      rw [Option.map_map, Option.map_map] at hbehind
      show _ = ((next m'.tape).map (Effect.behind m'.log.text)).map Effect.told
      rw [Option.map_map, Option.map_map]
      exact hbehind

/-- Lines are played as their effects. -/
theorem play_lines (hs : s.debug = false) (hget : ∀ line ∈ cutAfter 0x0a m.unread, 0x2c ∉ line)
    (hn : m.unread.length < n) :
    (play fs s .lines m n).map Played.told =
      (effects s ((cutAfter 0x0a m.unread).map lineProgram) m.tape).map Effect.told := by
  induction n generalizing m with
  | zero => exact absurd hn (Nat.not_lt_zero _)
  | succ n ih =>
    cases hu : m.unread with
    | nil =>
      have hend : Supply.lines.next fs m.unread = ⟨none, .finished, .spent, []⟩ := by
        rw [hu]
        rfl
      rw [play_finished hend]
      rfl
    | cons b l =>
      rw [hu, cutAfter_takeLine] at hget
      obtain ⟨hline, hrest⟩ := List.forall_mem_cons.1 hget
      rw [hu] at hn
      have hlt : (Supply.takeLine (b :: l)).2.length < n :=
        Nat.lt_of_le_of_lt Supply.length_takeLine_cons (Nat.lt_of_succ_lt_succ hn)
      rw [cutAfter_takeLine, List.map_cons, effects]
      have hnext : Supply.lines.next fs m.unread = _ :=
        (congrArg (Supply.next fs · .lines) hu).trans Supply.next_lines_cons
      refine play_program hs hnext (get_not_mem_lineProgram hline) fun m' hm' => ?_
      rw [← hm'] at hrest hlt ⊢
      exact ih hrest hlt

/-- A file is played as its effect. -/
theorem play_file {path text : String} (hs : s.debug = false) (hread : fs.read? (Path.normalise path) = some l)
    (htext : Supply.fileText l = .ok text) (hget : ',' ∉ (Program.ofString text).toList) :
    (play fs s (.argument path) m (n + 2)).map Played.told =
      ((Program.ofString text).effect s m.tape).map Effect.told := by
  rw [← effects_singleton, effects]
  refine play_program hs (Supply.next_file hread htext) hget fun m' _ => ?_
  rw [play_finished rfl]
  rfl

/-! ## Invocations -/

/-- How an invocation has ended and what it has written on either channel. -/
def Outcome.told (o : Outcome) : Status × String × String := (o.status, o.output, o.errors)

theorem Job.map_told_carryOut {j : Job} {tape : Tape} {input : List UInt8}
    (h : Tape.ofLength j.tapeLength = .ok tape) :
    (j.carryOut fs input).map Outcome.told =
      ((play fs j.setup (.ofArgument j.input) (.start tape input) (input.length + 2)).map Played.told).map fun x =>
        (.exit (if x.1.isNone then 0 else 1), x.2, x.1.elim "" Failure.report) := by
  rw [carryOut_eq h, Option.map_map, Option.map_map]
  rfl

/-- A program fed line by line does what it does as a file. Let the bytes be
well-formed and each line of them balanced and without `,`. Then an
invocation without words that has them as its input, and one that names a
file that holds them, whatever its input, end with the same status and have
written the same on both channels, or neither ends; whatever the settings
are, as long as they are good and not those of a debugged run. -/
theorem lines_run_like_file {env : Environment} {settings : Settings} {bytes : List UInt8} {f : String}
    (hset : (Settings.load fs none env).settings = .ok settings) (hdebug : settings.debug = false)
    (hbytes : Utf8.WellFormed bytes)
    (hlines : ∀ line ∈ cutAfter 0x0a bytes, Balanced (Latin1.decode line) ∧ 0x2c ∉ line)
    (hname : f.toList.head? ≠ some '-') (hfile : fs.read? (Path.normalise f) = some bytes) (input : List UInt8) :
    (invoke fs env [] bytes).map Outcome.told = (invoke fs env [f] input).map Outcome.told := by
  obtain ⟨text, htext⟩ := exists_fileText hbytes
  have hget : ',' ∉ (Program.ofString text).toList := by
    refine get_not_mem_of_bytes (marks_fileText htext) fun hmem => ?_
    rw [← flatten_cutAfter (x := 0x0a) (u := bytes)] at hmem
    obtain ⟨line, hline, hmem⟩ := List.mem_flatten.1 hmem
    exact (hlines line hline).2 hmem
  let lines : Job := ⟨none, settings.debug, settings.tapeLength, settings.memoryWindow⟩
  let file : Job := ⟨some f, settings.debug, settings.tapeLength, settings.memoryWindow⟩
  have hjobs : (lines.carryOut fs bytes).map Outcome.told = (file.carryOut fs input).map Outcome.told := by
    cases htape : Tape.ofLength settings.tapeLength with
    | error e => simp only [Job.carryOut, lines, file, htape, Option.map_some, Outcome.told]
    | ok tape =>
      have hs : lines.setup.debug = false := hdebug
      have hplay : (play fs lines.setup .lines (.start tape bytes) (bytes.length + 2)).map Played.told = _ :=
        play_lines hs (fun line hline => (hlines line hline).2) (by simp [start])
      rw [Job.map_told_carryOut (j := lines) htape, Job.map_told_carryOut (j := file) htape]
      refine congrArg _ (hplay.trans ?_)
      exact (congrArg _ (effect_eq_effects_lines hs hlines htext).symm).trans
        (play_file (m := .start tape input) (n := input.length) hs hfile htext hget).symm
  have hwarned (x : Option Outcome) (warnings : String) :
      (x.map fun o => { o with errors := warnings ++ o.errors }).map Outcome.told =
        (x.map Outcome.told).map fun y => (y.1, y.2.1, warnings ++ y.2.2) := by
    rw [Option.map_map, Option.map_map]
    rfl
  rw [invoke_eq hset wish_nothing rfl, invoke_eq hset (wish_program hname) rfl, hwarned, hwarned]
  exact congrArg _ hjobs

/-- The second of the lines `+.`, `é<` and `.` leaves the tape, and so does the
file of them. -/
theorem file_fails_like_lines :
    (invoke ⟨[(["p"], [0x2b, 0x2e, 0x0a, 0xc3, 0xa9, 0x3c, 0x0d, 0x0a, 0x2e])], [], [], false⟩
      ⟨[("BF_TAPE_LENGTH", "2")]⟩ ["p"] [0x2b]).map Outcome.told =
      some (.exit 1, "\x01", "\n❌ Error: Memory overflow (pointer=-1)\n") := by
  have hset : (Settings.load ⟨[(["p"], [0x2b, 0x2e, 0x0a, 0xc3, 0xa9, 0x3c, 0x0d, 0x0a, 0x2e])], [], [], false⟩ none
      ⟨[("BF_TAPE_LENGTH", "2")]⟩).settings = .ok { tapeLength := 2 } := by decide +kernel
  have hbytes : Utf8.WellFormed [0x2b, 0x2e, 0x0a, 0xc3, 0xa9, 0x3c, 0x0d, 0x0a, 0x2e] :=
    ⟨['+', '.', '\n', 'é', '<', '\r', '\n', '.'], rfl⟩
  have hfile : Files.read? ⟨[(["p"], [0x2b, 0x2e, 0x0a, 0xc3, 0xa9, 0x3c, 0x0d, 0x0a, 0x2e])], [], [], false⟩
      (Path.normalise "p") = some [0x2b, 0x2e, 0x0a, 0xc3, 0xa9, 0x3c, 0x0d, 0x0a, 0x2e] := by
    simp only [Files.read?, Path.isUsable, Path.normalise, Path.names_eq]
    decide +kernel
  refine (lines_run_like_file hset rfl hbytes (by decide) (by decide) hfile [0x2b]).symm.trans ?_
  decide +kernel

end CommandLine
end TapeMachine
