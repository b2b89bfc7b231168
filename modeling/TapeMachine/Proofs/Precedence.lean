/-
Where the values come from that a machine is built with: the command line
first, then the environment, then the env file, then the defaults
(`configuration_precedence`). What an accepted command line chooses is told
without its words left over and its order of checks (`Follows`): there the
last value of an option stands in place of all others.
-/
import TapeMachine.Proofs.Except
import TapeMachine.Proofs.Invocation
import TapeMachine.Proofs.PlainFiles
import TapeMachine.Proofs.ValidSettings

namespace TapeMachine

open Text

variable {fs : Files} {env : Environment} {name : String} {default n : Int} {flag : Option String}

/-! ## Layers -/

/-- The number that a flag or else a variable has, and else the default. A blank
variable counts as none; `none` where there is no number. -/
def layered (flag var : Option String) (default : Int) : Option Int :=
  match flag, var with
  | some raw, _ => Numeral.parse? raw.toList
  | none, none => some default
  | none, some raw => if raw.toList.all isBlank then some default else Numeral.parse? raw.toList

theorem layered_elim {var : Option String} {value : Option Int} (h : value = layered none var default) :
    flag.elim value (fun raw => Numeral.parse? raw.toList) = layered flag var default := by
  cases flag with
  | none => exact h
  | some raw => rfl

namespace Settings

variable {settings : Settings}

theorem layered_eq_some {var : Option String} (h : Says default var n) : layered none var default = some n := by
  cases h with
  | unset => rfl
  | blank hblank => exact if_pos hblank
  | literal h => exact (if_neg h.not_blank).trans (Numeral.parse?_eq_some_iff.2 h)

theorem ofEnvironment_eq_ok (h : ofEnvironment env = .ok settings) :
    layered none (env.get? tapeLengthName) Tape.defaultLength = some (settings.tapeLength : Int) ∧
      layered none (env.get? memoryWindowName) 0 = some (settings.memoryWindow : Int) ∧
      settings.debug = isTrue ((env.get? debugName).getD "") := by
  obtain ⟨hlength, -, hwindow, hdebug⟩ := ofEnvironment_eq_ok_iff.1 h
  exact ⟨layered_eq_some hlength, layered_eq_some hwindow, hdebug⟩

theorem isTrue_getD_iff {var : Option String} : isTrue (var.getD "") = true ↔ ∃ raw, var = some raw ∧
    String.ofList ((trim isBlank raw.toList).map Char.toLower) ∈ ["1", "true", "yes", "on"] := by
  cases var with
  | none => simp [isTrue, trim, dropEndWhile]
  | some raw => simp [isTrue]

theorem load_eq_ok {path : Option String} (h : (load fs path env).settings = .ok settings) :
    (EnvFile.load fs path env).error = none ∧
      ofEnvironment (EnvFile.load fs path env).environment = .ok settings := by
  unfold load at h
  dsimp only at h
  cases he : (EnvFile.load fs path env).error with
  | none =>
    rw [he] at h
    exact ⟨rfl, h⟩
  | some e =>
    rw [he] at h
    cases h

end Settings

namespace CommandLine

/-! ## Choices -/

/-- What an accepted command line chooses, token by token. -/
inductive Follows : Choice → List Token → Choice → Prop
  | done {c : Choice} : Follows c [] c
  | attached {c c' : Choice} {s : Switch} {short : Bool} {raw : String} {rest : List Token} :
    s.takesValue = true → Follows (c.set s (Numeral.parse? raw.toList)) rest c' →
    Follows c (.switch s short (some raw) :: rest) c'
  | separate {c c' : Choice} {s : Switch} {short : Bool} {raw : String} {rest : List Token} :
    s.takesValue = true → Follows (c.set s (Numeral.parse? raw.toList)) rest c' →
    Follows c (.switch s short none :: .positional raw :: rest) c'
  | debug {c c' : Choice} {short : Bool} {letters : Option String} {rest : List Token} :
    Follows { c with debug := true } rest c' → Follows c (.switch .debug short letters :: rest) c'
  | program {c c' : Choice} {word : String} {rest : List Token} :
    Follows { c with input := some word } rest c' → Follows c (.positional word :: rest) c'
  | separator {c c' : Choice} {rest : List Token} : Follows c rest c' → Follows c (.separator :: rest) c'

variable {c c' : Choice} {s : Switch} {tokens rest : List Token} {raw : String} {p : Progress}

theorem eq_parse_of_readValue {value : Option Int} (h : readValue s raw = .ok value) :
    value = Numeral.parse? raw.toList := by
  unfold readValue at h
  split at h
  · next hraw =>
    cases h
    rw [hraw]
    decide +kernel
  · cases hp : Numeral.parse? raw.toList with
    | none =>
      rw [hp] at h
      cases h
    | some k =>
      rw [hp] at h
      exact (Except.ok.inj h).symm

theorem eq_set_of_setValue (h : c.setValue s raw = .ok c') : c' = c.set s (Numeral.parse? raw.toList) := by
  obtain ⟨value, hvalue, rfl⟩ := map_eq_ok_iff.1 h
  rw [eq_parse_of_readValue hvalue]

theorem head_mem_flags {letters : List Char} {found : List Switch} (h : flags s letters = .ok found) : s ∈ found := by
  cases letters with
  | nil =>
    cases h
    exact List.mem_singleton_self _
  | cons letter letters =>
    rw [flags] at h
    split at h
    · obtain ⟨found, -, rfl⟩ := map_eq_ok_iff.1 h
      exact List.mem_cons_self
    · cases h

/-- A flag that asks for no help is the one for debugging. -/
theorem eq_debug_of_flagsOf {short : Bool} {letters : Option String} {flags : List Switch}
    (hs : ¬ s.takesValue = true) (h : flagsOf s short letters = .ok flags) (hhelp : Switch.help ∉ flags) :
    s = .debug := by
  cases s with
  | debug => rfl
  | tapeLength | memoryWindow => exact absurd rfl hs
  | help =>
    refine absurd ?_ hhelp
    unfold flagsOf at h
    split at h
    · cases h
      exact List.mem_singleton_self _
    · split at h
      · exact head_mem_flags h
      · cases h

theorem leftover_leave_ne_nil {word : String} : (p.leave word).leftover ≠ [] :=
  List.append_ne_nil_of_right_ne_nil _ (List.cons_ne_nil _ _)

/-- Words that are left over end in an error. -/
theorem follows_of_follow (h : p.follow tokens = .ok (.run c)) : p.leftover = [] ∧ Follows p.choice tokens c := by
  fun_induction Progress.follow p tokens with
  | case1 p hleft =>
    cases h
    exact ⟨List.isEmpty_iff.1 hleft, .done⟩
  | case2 | case5 | case7 | case8 | case9 | case11 => cases h
  | case3 p word rest ih => exact absurd (ih h).1 leftover_leave_ne_nil
  | case4 p s short rest hs raw c₁ hset ih =>
    obtain rfl := eq_set_of_setValue hset
    exact ⟨(ih h).1, .attached hs (ih h).2⟩
  | case6 p s short hs raw rest c₁ hset ih =>
    obtain rfl := eq_set_of_setValue hset
    exact ⟨(ih h).1, .separate hs (ih h).2⟩
  | case10 p s short letters rest hs flags hflags hhelp ih =>
    obtain rfl := eq_debug_of_flagsOf hs hflags hhelp
    exact ⟨(ih h).1, .debug (ih h).2⟩
  | case12 p word rest hinput ih => exact absurd (ih h).1 leftover_leave_ne_nil
  | case13 p word hinput p' rest ih => exact ⟨(ih h).1, .program (.separator (ih h).2)⟩
  | case14 p word hinput p' rest hsep ih => exact ⟨(ih h).1, .program (ih h).2⟩
  | case15 p rest hinput ih => exact absurd (ih h).1 leftover_leave_ne_nil
  | case16 p rest hinput ih => exact ⟨(ih h).1, .separator (ih h).2⟩

/-! ## Values -/

/-- The values that options were given, in order: those attached to them and
those that follow them. -/
def assignments : List Token → List (Switch × String)
  | [] => []
  | .switch s _ (some raw) :: rest => if s.takesValue then (s, raw) :: assignments rest else assignments rest
  | .switch s _ none :: .positional raw :: rest =>
    if s.takesValue then (s, raw) :: assignments rest else assignments rest
  | _ :: rest => assignments rest

/-- The last value that an option was given. -/
def lastValue (s : Switch) (tokens : List Token) : Option String := (assignments tokens).reverse.lookup s

/-- Whether the flag for debugging is among the tokens. -/
def debugGiven (tokens : List Token) : Prop := ∃ short letters, Token.switch .debug short letters ∈ tokens

/-- The value of an option that takes one. -/
def Choice.value (c : Choice) : Switch → Option Int
  | .tapeLength => c.tapeLength
  | .memoryWindow => c.memoryWindow
  | .help | .debug => none

theorem value_set {s' : Switch} {value : Option Int} (hs : s.takesValue = true) :
    (c.set s value).value s' = if s' = s then value else c.value s' := by
  cases s with
  | help | debug => cases hs
  | tapeLength => cases s' <;> rfl
  | memoryWindow => cases s' <;> rfl

theorem debug_set {value : Option Int} : (c.set s value).debug = c.debug := by
  cases s <;> rfl

theorem assignments_debug {short : Bool} {letters : Option String} :
    assignments (.switch .debug short letters :: rest) = assignments rest := by
  cases letters with
  | some raw => rfl
  | none =>
    cases rest with
    | nil => rfl
    | cons token rest => cases token <;> rfl

theorem lookup_reverse_cons {s' : Switch} {values : List (Switch × String)} :
    ((s, raw) :: values).reverse.lookup s' = (values.reverse.lookup s').or (if s' = s then some raw else none) := by
  rw [List.reverse_cons, List.lookup_append, List.lookup_cons]
  by_cases hs : s' = s
  · rw [if_pos hs, beq_iff_eq.2 hs]
  · rw [if_neg hs, beq_eq_false_iff_ne.2 hs]
    rfl

theorem debugGiven_cons {token : Token} :
    debugGiven (token :: rest) ↔ (∃ short letters, token = .switch .debug short letters) ∨ debugGiven rest := by
  simp only [debugGiven, List.mem_cons, exists_or, eq_comm]

theorem debugGiven_cons_of_ne {token : Token} (h : ∀ short letters, token ≠ .switch .debug short letters) :
    debugGiven (token :: rest) ↔ debugGiven rest :=
  debugGiven_cons.trans (or_iff_right fun ⟨short, letters, he⟩ => h short letters he)

theorem debugGiven_positional : debugGiven (.positional raw :: rest) ↔ debugGiven rest := debugGiven_cons_of_ne nofun

theorem debugGiven_separator : debugGiven (.separator :: rest) ↔ debugGiven rest := debugGiven_cons_of_ne nofun

namespace Follows

/-- A value given here counts where none is given later. -/
theorem value_of_assigned {s' : Switch} (hs : s.takesValue = true)
    (ih : c'.value s' = (lastValue s' rest).elim ((c.set s (Numeral.parse? raw.toList)).value s')
      fun raw => Numeral.parse? raw.toList) (hassigned : assignments tokens = (s, raw) :: assignments rest) :
    c'.value s' = (lastValue s' tokens).elim (c.value s') fun raw => Numeral.parse? raw.toList := by
  rw [ih, lastValue, lastValue, hassigned, lookup_reverse_cons]
  cases (assignments rest).reverse.lookup s' with
  | some later => rfl
  | none =>
    rw [value_set hs]
    by_cases hsame : s' = s
    · rw [if_pos hsame, if_pos hsame]
      rfl
    · rw [if_neg hsame, if_neg hsame]
      rfl

/-- An option has the last value that it was given. -/
theorem value_eq (h : Follows c tokens c') (s : Switch) :
    c'.value s = (lastValue s tokens).elim (c.value s) fun raw => Numeral.parse? raw.toList := by
  induction h with
  | done => rfl
  | attached hs _ ih => exact value_of_assigned hs ih (if_pos hs)
  | separate hs _ ih => exact value_of_assigned hs ih (if_pos hs)
  | debug _ ih =>
    rw [ih, lastValue, lastValue, assignments_debug]
    cases s <;> rfl
  | program _ ih =>
    rw [ih]
    cases s <;> rfl
  | separator _ ih => exact ih

theorem debug_iff (h : Follows c tokens c') : c'.debug = true ↔ c.debug = true ∨ debugGiven tokens := by
  have hvalued {s : Switch} {short : Bool} {attached : Option String} (hs : s.takesValue = true) (short' : Bool)
      (letters : Option String) : Token.switch s short attached ≠ .switch .debug short' letters := by
    intro he
    cases he
    cases hs
  induction h with
  | done => simp [debugGiven]
  | attached hs _ ih =>
    refine ih.trans ?_
    rw [debug_set, debugGiven_cons_of_ne (hvalued hs)]
  | separate hs _ ih =>
    refine ih.trans ?_
    rw [debug_set, debugGiven_cons_of_ne (hvalued hs), debugGiven_positional]
  | debug _ ih => simp [ih, debugGiven_cons]
  | program _ ih =>
    refine ih.trans ?_
    rw [debugGiven_positional]
  | separator _ ih =>
    refine ih.trans ?_
    rw [debugGiven_separator]

end Follows

theorem exists_tokens_of_wish {settings : Settings} {words : List String} (h : wish settings words = .ok (.run c)) :
    ∃ tokens, Token.ofWords words = .ok tokens ∧ Follows (.ofSettings settings) tokens c := by
  obtain ⟨tokens, htokens, h⟩ := bind_eq_ok_iff.1 h
  exact ⟨tokens, htokens, (follows_of_follow h).2⟩

/-! ## Invocations -/

/-- A variable's value after the env file is loaded: its own, or the one that
the file gives it. -/
def effective (fs : Files) (env : Environment) (name : String) : Option String :=
  (env.get? name).or (EnvFile.given fs none env name)

theorem effective_of_disabled (h : EnvFile.isDisabled env = true) : effective fs env name = env.get? name := by
  rw [effective, EnvFile.given, if_pos h, Option.or_none]

theorem effective_plainFile {lines : List EnvFile.PlainLine} (hd : EnvFile.isDisabled env = false)
    (h : EnvFile.Chooses fs none (Utf8.encode (EnvFile.plainText lines))) :
    effective fs env name = (env.get? name).or (EnvFile.lastFor name lines) := by
  rw [effective, EnvFile.given_plainFile hd h]

/-- Where a configuration comes from. Let the settings be good and the words of
the command line ask for a run. Then the tape has as many cells as the last
value of `--tape-length` says, or else the variable `BF_TAPE_LENGTH`, which
an env file can only set where it is not set, or else 40000; the window is
found in the same way, with 0 in the end; and the run is a debugged one if
the flag is given or `BF_DEBUG` says so. It is on a machine with these values
that the programs are played.

The env file is the nearest one called `.env`, unless it is to be ignored. If
its lines are plain ones, then it gives no cause for a warning, and the value
of a variable that is not set is the one on the last line for it.

Where there are no settings every invocation ends with the error, whatever
its words are, with nothing shown and nothing taken from the input. -/
theorem configuration_precedence (fs : Files) (env : Environment) :
    (∀ settings words c input, (Settings.load fs none env).settings = .ok settings →
      wish settings words = .ok (.run c) →
      ∃ tokens, Token.ofWords words = .ok tokens ∧
        c.tapeLength = layered (lastValue .tapeLength tokens) (effective fs env "BF_TAPE_LENGTH") 40000 ∧
        c.memoryWindow = layered (lastValue .memoryWindow tokens) (effective fs env "BF_MEMORY_WINDOW") 0 ∧
        (c.debug = true ↔ debugGiven tokens ∨ ∃ raw, effective fs env "BF_DEBUG" = some raw ∧
          String.ofList ((trim isBlank raw.toList).map Char.toLower) ∈ ["1", "true", "yes", "on"]) ∧
        ∀ (length window : Int) (hlength : 1 ≤ length), c.tapeLength = some length → c.memoryWindow = some window →
          invoke fs env words input =
            (play fs ⟨c.debug, if 0 < window then some window.toNat else none, .prompt⟩ (.ofArgument c.input)
              (.start (.blank length.toNat (Int.lt_toNat.2 hlength)) input) (input.length + 2)).map fun p =>
                ⟨.exit (if p.failure.isNone then 0 else 1), p.shown,
                  (Settings.load fs none env).warnings ++ p.failure.elim "" Failure.report, p.machine.unread⟩) ∧
    (EnvFile.isDisabled env = true → ∀ name, effective fs env name = env.get? name) ∧
    (∀ lines, EnvFile.isDisabled env = false → EnvFile.Chooses fs none (Utf8.encode (EnvFile.plainText lines)) →
      (Settings.load fs none env).warnings = "" ∧
        ∀ name, effective fs env name = (env.get? name).or (EnvFile.lastFor name lines)) ∧
    ∀ e, (Settings.load fs none env).settings = .error e → ∀ words input, invoke fs env words input =
      some ⟨.exit 2, "", (Settings.load fs none env).warnings ++ ("❌ Error: " ++ e.message ++ "\n"), input⟩ := by
  refine ⟨?_, fun hd _ => effective_of_disabled hd, ?_, ?_⟩
  · intro settings words c input hset hwish
    obtain ⟨tokens, htokens, hfollows⟩ := exists_tokens_of_wish hwish
    obtain ⟨herror, hsettings⟩ := Settings.load_eq_ok hset
    have hget (name : String) : (EnvFile.load fs none env).environment.get? name = effective fs env name :=
      EnvFile.get?_load herror
    obtain ⟨hlength, hwindow, hdebug⟩ := Settings.ofEnvironment_eq_ok hsettings
    rw [hget] at hlength hwindow hdebug
    refine ⟨tokens, htokens, ?_, ?_, ?_, fun length window hpos hl hw => ?_⟩
    · exact (hfollows.value_eq .tapeLength).trans (layered_elim hlength.symm)
    · exact (hfollows.value_eq .memoryWindow).trans (layered_elim hwindow.symm)
    · have hsettings : (Choice.ofSettings settings).debug = Settings.isTrue ((effective fs env "BF_DEBUG").getD "") :=
        hdebug
      rw [hfollows.debug_iff, hsettings, Settings.isTrue_getD_iff, or_comm]
    · have hjob : c.job = .ok ⟨c.input, c.debug, length, window⟩ := by rw [Choice.job, hw, hl]
      have htape : Tape.ofLength length = .ok (.blank length.toNat (Int.lt_toNat.2 hpos)) :=
        Tape.ofLength_eq_ok_iff.2 ⟨hpos, rfl⟩
      rw [invoke_eq hset hwish hjob, Job.carryOut_eq htape, Option.map_map]
      rfl
  · intro lines hd hchooses
    refine ⟨?_, fun _ => effective_plainFile hd hchooses⟩
    rw [Settings.load, (EnvFile.load_plainFile hchooses).2]
    rfl
  · intro e he words input
    simp only [invoke, plan, he, Option.map_some]

/-- A folder whose env file asks for a tape of 5 cells and a window of 3. -/
def narrowFolder : Files where
  contents := [([".env"], "BF_TAPE_LENGTH=5\nBF_MEMORY_WINDOW=3\n".toUTF8.data.toList)]
  folders := []
  here := []

/-- In this folder the tape ends after the fifth cell, and reports show three. A
blank variable hides the 5, and not the 3: there the tape has its 40000 cells.
Of two flags the second counts, before all of these. -/
theorem file_counts_unless_hidden :
    (invoke narrowFolder {} [] "#>>>>>".toUTF8.data.toList).map (fun o => (o.output, o.errors)) =
      some ("Ptr: 0, value: 0\nMemory:   [  0|  0|  0]\nPointer:    ^         \nAddress:     0   1   2\n",
        "\n❌ Error: Memory overflow (pointer=5)\n") ∧
    (∃ settings c, (Settings.load narrowFolder none ⟨[("BF_TAPE_LENGTH", " ")]⟩).settings = .ok settings ∧
      wish settings [] = .ok (.run c) ∧ c.tapeLength = some 40000 ∧ c.memoryWindow = some 3) ∧
    (invoke narrowFolder ⟨[("BF_TAPE_LENGTH", " ")]⟩ ["--tape-length", "9", "--tape=2"] [0x3e, 0x3e]).map (·.errors) =
      some "\n❌ Error: Memory overflow (pointer=2)\n" := by
  have hchooses : EnvFile.Chooses narrowFolder none (Utf8.encode (EnvFile.plainText
      [⟨"BF_TAPE_LENGTH".toList, ['5'], by decide, List.all_eq_true.1 (by decide), List.all_eq_true.1 (by decide)⟩,
        ⟨"BF_MEMORY_WINDOW".toList, ['3'], by decide, List.all_eq_true.1 (by decide), List.all_eq_true.1 (by decide)⟩])) :=
    .nearest (k := 0) (.inl rfl) (Nat.le_refl _) (by decide +kernel) fun j hj hle => absurd hj (Nat.not_lt.2 hle)
  refine ⟨?_, ?_, ?_⟩
  · have hset : (Settings.load narrowFolder none {}).settings = .ok { tapeLength := 5, memoryWindow := 3 } := by
      decide +kernel
    have hwish : wish { tapeLength := 5, memoryWindow := 3 } [] = .ok (.run ⟨none, false, some 5, some 3⟩) := rfl
    obtain ⟨tokens, -, -, -, -, hrun⟩ := (configuration_precedence _ _).1 _ _ _ "#>>>>>".toUTF8.data.toList hset hwish
    rw [hrun 5 3 (by decide) rfl rfl]
    decide +kernel
  · have hset : (Settings.load narrowFolder none ⟨[("BF_TAPE_LENGTH", " ")]⟩).settings = .ok { memoryWindow := 3 } := by
      decide +kernel
    have hwish : wish { memoryWindow := 3 } [] = .ok (.run ⟨none, false, some 40000, some 3⟩) := rfl
    obtain ⟨hvalues, -, hfile, -⟩ := configuration_precedence narrowFolder ⟨[("BF_TAPE_LENGTH", " ")]⟩
    obtain ⟨tokens, htokens, hlength, hwindow, -⟩ := hvalues _ _ _ [] hset hwish
    obtain rfl : [] = tokens := Except.ok.inj htokens
    rw [(hfile _ (by decide) hchooses).2] at hlength hwindow
    exact ⟨_, _, hset, hwish, hlength, hwindow⟩
  · have hset : (Settings.load narrowFolder none ⟨[("BF_TAPE_LENGTH", " ")]⟩).settings = .ok { memoryWindow := 3 } := by
      decide +kernel
    have hwish : wish { memoryWindow := 3 } ["--tape-length", "9", "--tape=2"] =
        .ok (.run ⟨none, false, some 2, some 3⟩) := by decide +kernel
    obtain ⟨tokens, -, -, -, -, hrun⟩ := (configuration_precedence _ _).1 _ _ _ [0x3e, 0x3e] hset hwish
    rw [hrun 2 3 (by decide) rfl rfl]
    decide +kernel

end CommandLine
end TapeMachine
