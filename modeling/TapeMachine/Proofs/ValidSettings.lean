/-
Which environments are settings. Both variables of integers are read in the
same way, each with its default, its least value and its refusal (`bounded`);
what one says is `Says`, and it is refused if that is nothing or too little.
The settings are those of the two, one after the other (`ofEnvironment_eq`).
-/
import TapeMachine.Proofs.Except
import TapeMachine.Proofs.Numerals
import TapeMachine.Settings

namespace TapeMachine

open Text

namespace Settings

variable {env : Environment} {name : String} {default least n k : Int} {low : Int → SettingsError}
  {var : Option String} {e : SettingsError} {settings : Settings}

/-! ## Variables of integers -/

/-- The integer that a variable says; unset or blank it says the default. -/
inductive Says (default : Int) : Option String → Int → Prop
  | unset : Says default none default
  | blank {raw : String} : raw.toList.all isBlank → Says default (some raw) default
  | literal {raw : String} {n : Int} : Numeral.Literal raw.toList n → Says default (some raw) n

/-- A variable says an integer that is not below the least. -/
def Allowed (default least : Int) (var : Option String) : Prop := ∃ n, Says default var n ∧ least ≤ n

/-- Why a variable is refused: it says nothing, or too little. -/
inductive Refused (name : String) (default least : Int) (low : Int → SettingsError) :
    Option String → SettingsError → Prop
  | silent {raw : String} : (∀ n, ¬ Says default (some raw) n) →
    Refused name default least low (some raw) (.notInteger name raw)
  | low {var : Option String} {n : Int} : Says default var n → n < least → Refused name default least low var (low n)

theorem integer_eq_ok_iff : integer env name default = .ok n ↔ Says default (env.get? name) n := by
  unfold integer
  cases env.get? name with
  | none =>
    refine ⟨fun h => Except.ok.inj h ▸ .unset, fun h => ?_⟩
    cases h
    rfl
  | some raw =>
    dsimp only
    split
    · next hblank =>
      refine ⟨fun h => Except.ok.inj h ▸ .blank hblank, fun h => ?_⟩
      cases h with
      | blank => rfl
      | literal h => exact absurd hblank h.not_blank
    · next hblank =>
      have hmeans : Says default (some raw) n ↔ Numeral.parse? raw.toList = some n := by
        rw [Numeral.parse?_eq_some_iff]
        refine ⟨fun h => ?_, .literal⟩
        cases h with
        | blank h => exact absurd h hblank
        | literal h => exact h
      rw [hmeans]
      cases Numeral.parse? raw.toList with
      | none => exact ⟨nofun, nofun⟩
      | some m => exact ⟨fun h => congrArg some (Except.ok.inj h), fun h => congrArg _ (Option.some.inj h)⟩

theorem says_unique (h : Says default var n) (h' : Says default var k) : n = k := by
  cases h with
  | unset =>
    cases h'
    rfl
  | blank hblank =>
    cases h' with
    | blank => rfl
    | literal h => exact absurd hblank h.not_blank
  | literal h =>
    cases h' with
    | blank hblank => exact absurd hblank h.not_blank
    | literal h' => exact h.unique h'

theorem integer_eq_error (h : integer env name default = .error e) :
    ∃ raw, env.get? name = some raw ∧ e = .notInteger name raw := by
  unfold integer at h
  cases hv : env.get? name with
  | none =>
    rw [hv] at h
    cases h
  | some raw =>
    rw [hv] at h
    dsimp only at h
    split at h
    · cases h
    · cases hp : Numeral.parse? raw.toList with
      | none =>
        rw [hp] at h
        exact ⟨raw, rfl, (Except.error.inj h).symm⟩
      | some m =>
        rw [hp] at h
        cases h

/-- An integer variable that must not be below the least. -/
def bounded (env : Environment) (name : String) (default least : Int) (low : Int → SettingsError) :
    Except SettingsError Int := do
  let n ← integer env name default
  if n < least then throw (low n) else return n

theorem bounded_eq_ok_iff :
    bounded env name default least low = .ok n ↔ Says default (env.get? name) n ∧ least ≤ n := by
  rw [bounded, bind_eq_ok_iff]
  constructor
  · rintro ⟨m, hm, h⟩
    split at h
    · cases h
    · next hlow =>
      cases h
      exact ⟨integer_eq_ok_iff.1 hm, Int.not_lt.1 hlow⟩
  · rintro ⟨hmeans, hleast⟩
    refine ⟨n, integer_eq_ok_iff.2 hmeans, ?_⟩
    rw [if_neg (Int.not_lt.2 hleast)]
    rfl

theorem refused_of_bounded (h : bounded env name default least low = .error e) :
    Refused name default least low (env.get? name) e := by
  rw [bounded] at h
  cases hi : integer env name default with
  | error e' =>
    rw [hi] at h
    cases h
    obtain ⟨raw, hraw, rfl⟩ := integer_eq_error hi
    rw [hraw]
    refine .silent fun n hn => ?_
    rw [← hraw] at hn
    have hok := integer_eq_ok_iff.2 hn
    rw [hi] at hok
    cases hok
  | ok n =>
    rw [hi] at h
    change (if n < least then Except.error (low n) else Except.ok n) = Except.error e at h
    split at h
    · next hlow =>
      cases h
      exact .low (integer_eq_ok_iff.1 hi) hlow
    · cases h

theorem exists_bounded_error (low : Int → SettingsError) (h : ¬ Allowed default least (env.get? name)) :
    ∃ e, bounded env name default least low = .error e ∧ Refused name default least low (env.get? name) e := by
  cases hb : bounded env name default least low with
  | ok n => exact absurd ⟨n, bounded_eq_ok_iff.1 hb⟩ h
  | error e => exact ⟨e, rfl, refused_of_bounded hb⟩

/-! ## Settings -/

theorem ofEnvironment_eq : ofEnvironment env = do
    let length ← bounded env tapeLengthName Tape.defaultLength 1 .tapeTooShort
    let window ← bounded env memoryWindowName 0 0 .negativeWindow
    let debug := isTrue ((env.get? debugName).getD "")
    return { tapeLength := length.toNat, debug, memoryWindow := window.toNat } := by
  unfold ofEnvironment bounded
  cases integer env tapeLengthName Tape.defaultLength with
  | error e => rfl
  | ok length =>
    simp only [bind, Except.bind]
    split
    · rfl
    · cases integer env memoryWindowName 0 with
      | error e => rfl
      | ok window =>
        simp only [pure, Except.pure]
        split <;> rfl

theorem ofEnvironment_eq_ok_iff : ofEnvironment env = .ok settings ↔
    Says Tape.defaultLength (env.get? tapeLengthName) settings.tapeLength ∧ 1 ≤ settings.tapeLength ∧
      Says 0 (env.get? memoryWindowName) settings.memoryWindow ∧
      settings.debug = isTrue ((env.get? debugName).getD "") := by
  rw [ofEnvironment_eq]
  simp only [bind_eq_ok_iff, bounded_eq_ok_iff]
  constructor
  · rintro ⟨length, ⟨hlength, hl⟩, window, ⟨hwindow, hw⟩, h⟩
    cases h
    refine ⟨?_, ?_, ?_, ?_⟩
    · rwa [Int.toNat_of_nonneg (by omega)]
    · dsimp only
      omega
    · rwa [Int.toNat_of_nonneg hw]
    · dsimp only
  · rintro ⟨hlength, hl, hwindow, hdebug⟩
    refine ⟨_, ⟨hlength, by omega⟩, _, ⟨hwindow, by omega⟩, ?_⟩
    rw [← hdebug]
    rfl

theorem exists_ofEnvironment_iff : (∃ settings, ofEnvironment env = .ok settings) ↔
    Allowed Tape.defaultLength 1 (env.get? tapeLengthName) ∧ Allowed 0 0 (env.get? memoryWindowName) := by
  constructor
  · rintro ⟨settings, h⟩
    obtain ⟨hlength, hl, hwindow, -⟩ := ofEnvironment_eq_ok_iff.1 h
    exact ⟨⟨_, hlength, by omega⟩, _, hwindow, by omega⟩
  · rintro ⟨⟨length, hlength⟩, window, hwindow⟩
    rw [ofEnvironment_eq, bounded_eq_ok_iff.2 hlength, bounded_eq_ok_iff.2 hwindow]
    exact ⟨_, rfl⟩

theorem ofEnvironment_insert_debug {value : String} : ofEnvironment (env.insert debugName value) =
    (ofEnvironment env).map fun settings => { settings with debug := isTrue value } := by
  have hother {name : String} (h : name ≠ debugName) :
      bounded (env.insert debugName value) name = bounded env name := by
    funext default least low
    rw [bounded, bounded, integer, integer, Environment.get?_insert_other h]
  rw [ofEnvironment_eq, ofEnvironment_eq, hother (by decide), hother (by decide), Environment.get?_insert_self]
  cases bounded env tapeLengthName Tape.defaultLength 1 .tapeTooShort with
  | error e => rfl
  | ok length =>
    cases bounded env memoryWindowName 0 0 .negativeWindow with
    | error e => rfl
    | ok window => rfl

/-- A refusal names the variable, if that for too little does. -/
theorem Refused.names (h : Refused name default least low var e) (hlow : ∀ n, ∃ rest, (low n).message = name ++ rest) :
    ∃ rest, e.message = name ++ rest := by
  cases h with
  | silent => exact ⟨_, String.append_assoc ..⟩
  | low => exact hlow _

theorem tapeLength_refused (h : ¬ Allowed Tape.defaultLength 1 (env.get? tapeLengthName)) :
    ∃ e rest, ofEnvironment env = .error e ∧
      Refused tapeLengthName Tape.defaultLength 1 .tapeTooShort (env.get? tapeLengthName) e ∧
      e.message = tapeLengthName ++ rest := by
  have hnames (n : Int) : ∃ rest, (SettingsError.tapeTooShort n).message = tapeLengthName ++ rest :=
    ⟨_, String.append_assoc ..⟩
  obtain ⟨e, he, hrefused⟩ := exists_bounded_error .tapeTooShort h
  obtain ⟨rest, hrest⟩ := hrefused.names hnames
  refine ⟨e, rest, ?_, hrefused, hrest⟩
  rw [ofEnvironment_eq, he]
  rfl

/-- The window is only looked at behind a good length. -/
theorem memoryWindow_refused (hlength : Allowed Tape.defaultLength 1 (env.get? tapeLengthName))
    (h : ¬ Allowed 0 0 (env.get? memoryWindowName)) :
    ∃ e rest, ofEnvironment env = .error e ∧
      Refused memoryWindowName 0 0 .negativeWindow (env.get? memoryWindowName) e ∧
      e.message = memoryWindowName ++ rest := by
  obtain ⟨n, hn⟩ := hlength
  have hnames (n : Int) : ∃ rest, (SettingsError.negativeWindow n).message = memoryWindowName ++ rest :=
    ⟨_, String.append_assoc ..⟩
  obtain ⟨e, he, hrefused⟩ := exists_bounded_error .negativeWindow h
  obtain ⟨rest, hrest⟩ := hrefused.names hnames
  refine ⟨e, rest, ?_, hrefused, hrest⟩
  rw [ofEnvironment_eq, bounded_eq_ok_iff.2 hn, he]
  rfl

theorem load_settings_eq {fs : Files} {path : Option String} (h : (EnvFile.load fs path env).error = none) :
    (load fs path env).settings = ofEnvironment (load fs path env).environment := by
  unfold load
  dsimp only
  rw [h]

/-- An environment is accepted exactly if the length of the tape is one of at least 1 and
the window one of at least 0, and the settings are what the two variables say. The length
is refused before the window, under its name, and nothing that the variable for debugging
says is refused. What counts as an integer is a grammar: every integer has its decimal
text in it, as far as there is room, and blanks, zeros, underscores and scripts make no
difference. Blank is what trimming leaves nothing of; the separators are, but no integer
has one around it. -/
theorem accepted_iff_valid (env : Environment) :
    let length := env.get? "BF_TAPE_LENGTH"
    let window := env.get? "BF_MEMORY_WINDOW"
    ((∃ settings, ofEnvironment env = .ok settings) ↔ Allowed 40000 1 length ∧ Allowed 0 0 window) ∧
    (∀ settings, ofEnvironment env = .ok settings →
      (∀ n, Says 40000 length n ↔ n = settings.tapeLength) ∧ 1 ≤ settings.tapeLength ∧
        ∀ n, Says 0 window n ↔ n = settings.memoryWindow) ∧
    (¬ Allowed 40000 1 length → ∃ e rest, ofEnvironment env = .error e ∧
      Refused "BF_TAPE_LENGTH" 40000 1 .tapeTooShort length e ∧ e.message = "BF_TAPE_LENGTH" ++ rest) ∧
    (Allowed 40000 1 length → ¬ Allowed 0 0 window → ∃ e rest, ofEnvironment env = .error e ∧
      Refused "BF_MEMORY_WINDOW" 0 0 .negativeWindow window e ∧ e.message = "BF_MEMORY_WINDOW" ++ rest) ∧
    (∀ value, ofEnvironment (env.insert "BF_DEBUG" value) =
      (ofEnvironment env).map fun settings => { settings with debug := isTrue value }) ∧
    (∀ fs path start, (EnvFile.load fs path start).error = none → (load fs path start).environment = env →
      (load fs path start).settings = ofEnvironment env) ∧
    (∀ s n, Numeral.parse? s = some n ↔ Numeral.Literal s n) ∧
    (∀ n : Int, Numeral.parse? n.repr.toList =
      if (Nat.toDigits 10 n.natAbs).length ≤ 4300 then some n else none) ∧
    (∀ s t sign ds k, Numeral.Spells s sign ds → Numeral.Spells t sign (List.replicate k 0 ++ ds) →
      k + ds.length ≤ 4300 → Numeral.parse? t = Numeral.parse? s) ∧
    (∀ s : List Char, s.all isBlank ↔ trim isBlank s = []) ∧
    ∀ c, isSeparator c → isBlank c ∧ ∀ s n, c ∈ s → ¬ Numeral.Literal s n := by
  intro length window
  refine ⟨exists_ofEnvironment_iff, ?_, tapeLength_refused, memoryWindow_refused, fun _ => ofEnvironment_insert_debug,
    ?_, fun _ _ => Numeral.parse?_eq_some_iff, fun _ => Numeral.parse?_repr,
    fun _ _ _ _ _ => Numeral.parse?_respelled, fun _ => trim_eq_nil_iff.symm, ?_⟩
  · intro settings h
    obtain ⟨hlength, hl, hwindow, -⟩ := ofEnvironment_eq_ok_iff.1 h
    exact ⟨fun n => ⟨fun hn => says_unique hn hlength, fun hn => hn ▸ hlength⟩, hl,
      fun n => ⟨fun hn => says_unique hn hwindow, fun hn => hn ▸ hwindow⟩⟩
  · rintro fs path start herror rfl
    exact load_settings_eq herror
  · intro c hc
    refine ⟨by simp [isBlank, hc], fun s n hmem hliteral => ?_⟩
    rw [hliteral.not_separator c hmem] at hc
    cases hc

end Settings
end TapeMachine
