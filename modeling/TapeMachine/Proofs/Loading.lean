/-
What loading an env file does to the environment. A name is bound by its last
statement (`mem_bind_iff`), and setting the bindings gives each variable that
was not there the value that the file binds to it (`get?_setAll`), so
variables are only added. Values depend on the environment, by the references
in them, but not which names have one (`shape_bind`): so after loading there
is nothing to set any more, and loading again does nothing
(`load_again`).
-/
import Mathlib.Data.List.Induction
import TapeMachine.Settings

namespace TapeMachine
namespace EnvFile

variable {fs : Files} {path : Option String} {env env' : Environment} {name key v : String} {value : Option String}
  {bs : Bindings} {statements : List (String × Option String)} {bytes : List UInt8} {text : List Char}

/-! ## Bindings -/

namespace Bindings

theorem mem_put {b : String × Option String} : b ∈ bs.put key value ↔ b = (key, value) ∨ b.1 ≠ key ∧ b ∈ bs := by
  unfold put
  split
  · next hany =>
    obtain ⟨old, hold, hkey⟩ := List.any_eq_true.1 hany
    rw [List.mem_map]
    constructor
    · intro h
      obtain ⟨a, ha, rfl⟩ := h
      split
      · exact .inl rfl
      · next hne => exact .inr ⟨hne, ha⟩
    · intro h
      rcases h with rfl | ⟨hne, hb⟩
      · exact ⟨old, hold, if_pos (of_decide_eq_true hkey)⟩
      · exact ⟨b, hb, if_neg hne⟩
  · next hany =>
    rw [List.mem_append, List.mem_singleton, or_comm]
    refine or_congr_right ⟨fun hb => ⟨fun he => hany ?_, hb⟩, fun h => h.2⟩
    exact List.any_eq_true.2 ⟨b, hb, decide_eq_true he⟩

/-- The names that are bound, and which of them to a value. -/
def shape (bs : Bindings) : List (String × Bool) := bs.map fun b => (b.1, b.2.isSome)

theorem shape_put :
    (bs.put key value).shape =
      if bs.shape.any (·.1 = key) then bs.shape.map fun b => if b.1 = key then (key, value.isSome) else b
      else bs.shape ++ [(key, value.isSome)] := by
  have hany : bs.shape.any (·.1 = key) = bs.any (·.1 = key) := by rw [shape, List.any_map]; rfl
  rw [hany, put]
  split
  · rw [shape, shape, List.map_map, List.map_map]
    refine List.map_congr_left fun b _ => ?_
    by_cases hb : b.1 = key
    · simp [hb]
    · simp [hb]
  · rw [shape, List.map_append]
    rfl

/-- What a name is bound to. -/
def value? (bs : Bindings) (name : String) : Option String := bs.findSome? fun b => if b.1 = name then b.2 else none

theorem mem_of_value? (h : bs.value? name = some v) : (name, some v) ∈ bs := by
  obtain ⟨⟨key, value⟩, hb, hvalue⟩ := List.exists_of_findSome?_eq_some h
  by_cases hname : key = name
  · rw [if_pos hname] at hvalue
    exact hname ▸ hvalue ▸ hb
  · rw [if_neg hname] at hvalue
    cases hvalue

theorem isSome_value? (h : (name, true) ∈ bs.shape) : (bs.value? name).isSome := by
  obtain ⟨⟨key, value⟩, hb, hshape⟩ := List.mem_map.1 h
  obtain ⟨rfl, hsome⟩ := Prod.mk.inj hshape
  refine List.findSome?_isSome_iff.2 ⟨_, hb, ?_⟩
  rwa [if_pos rfl]

end Bindings

theorem bind_concat {st : String × Option String} :
    bind env (statements ++ [st]) =
      (bind env statements).put st.1 (st.2.map (expand env (bind env statements))) := by
  simp [bind]

/-- A name is bound to the value of its last statement, in which references
stand for what was bound before. -/
theorem mem_bind_iff :
    (name, value) ∈ bind env statements ↔ ∃ before raw after, statements = before ++ (name, raw) :: after ∧
      (∀ st ∈ after, st.1 ≠ name) ∧ value = raw.map (expand env (bind env before)) := by
  induction statements using List.reverseRecOn generalizing value with
  | nil => simp [bind]
  | append_singleton statements st ih =>
    rw [bind_concat, Bindings.mem_put, ih]
    constructor
    · intro h
      rcases h with h | ⟨hne, before, raw, after, rfl, hafter, hvalue⟩
      · obtain ⟨rfl, rfl⟩ := Prod.mk.inj h
        exact ⟨statements, st.2, [], rfl, nofun, rfl⟩
      · refine ⟨before, raw, after ++ [st], by simp, fun x hx => ?_, hvalue⟩
        rcases List.mem_append.1 hx with hx | hx
        · exact hafter x hx
        · exact List.mem_singleton.1 hx ▸ Ne.symm hne
    · intro h
      obtain ⟨before, raw, after, heq, hafter, rfl⟩ := h
      rcases List.eq_nil_or_concat after with rfl | ⟨after, x, rfl⟩
      · obtain ⟨rfl, hst⟩ := List.append_inj' heq rfl
        obtain rfl := List.singleton_inj.1 hst
        exact .inl rfl
      · rw [List.concat_eq_append, ← List.cons_append, ← List.append_assoc] at heq
        obtain ⟨rfl, hst⟩ := List.append_inj' heq rfl
        obtain rfl := List.singleton_inj.1 hst
        refine .inr ⟨Ne.symm (hafter st (by simp)), before, raw, after, rfl, fun x hx => hafter x ?_, rfl⟩
        simp [hx]

/-- A name is bound once. -/
theorem eq_of_mem_bind {value' : Option String} (h : (name, value) ∈ bind env statements)
    (h' : (name, value') ∈ bind env statements) : value = value' := by
  induction statements using List.reverseRecOn with
  | nil => simp [bind] at h
  | append_singleton statements st ih =>
    rw [bind_concat, Bindings.mem_put] at h h'
    rcases h with h | ⟨hne, h⟩
    · rcases h' with h' | ⟨hne, -⟩
      · rw [← (Prod.mk.inj h').2] at h
        exact (Prod.mk.inj h).2
      · exact absurd (Prod.mk.inj h).1 hne
    · rcases h' with h' | ⟨-, h'⟩
      · exact absurd (Prod.mk.inj h').1 hne
      · exact ih h h'

theorem value?_bind : (bind env statements).value? name = some v ↔ (name, some v) ∈ bind env statements := by
  refine ⟨Bindings.mem_of_value?, fun h => ?_⟩
  obtain ⟨w, hw⟩ := Option.isSome_iff_exists.1 (Bindings.isSome_value? (List.mem_map.2 ⟨_, h, rfl⟩))
  rw [hw, eq_of_mem_bind h (Bindings.mem_of_value? hw)]

/-- Which names have a value does not depend on the environment. -/
theorem shape_bind : (bind env statements).shape = (bind env' statements).shape := by
  induction statements using List.reverseRecOn with
  | nil => rfl
  | append_singleton statements st ih =>
    rw [bind_concat, bind_concat, Bindings.shape_put, Bindings.shape_put, ih, Option.isSome_map, Option.isSome_map]

/-! ## Setting variables -/

theorem get?_setVariable (h : setVariable env key v = .ok env') :
    env'.get? name = if name = key then some v else env.get? name := by
  unfold setVariable at h
  split at h
  · cases h
  · split at h
    · cases h
    · cases h
      split
      · next hname => rw [hname, Environment.get?_insert_self]
      · next hname => exact Environment.get?_insert_other hname

/-- Variables that are there keep their values, the others have what they are
bound to. -/
theorem get?_setAll (h : setAll env bs = (env', none)) : env'.get? name = (env.get? name).or (bs.value? name) := by
  induction bs generalizing env with
  | nil =>
    cases h
    exact (Option.or_none).symm
  | cons b bs ih =>
    obtain ⟨key, value⟩ := b
    cases value with
    | none =>
      rw [ih h, Bindings.value?, Bindings.value?, List.findSome?_cons, ite_self]
    | some v =>
      rw [setAll] at h
      rw [Bindings.value?, List.findSome?_cons]
      split at h
      · next hc =>
        rw [ih h]
        by_cases hname : key = name
        · obtain ⟨w, hw⟩ := Option.isSome_iff_exists.1 (hname ▸ hc)
          rw [hw]
          rfl
        · rw [if_neg hname]
          rfl
      · next hc =>
        split at h
        · next env₁ hset =>
          rw [ih h, get?_setVariable hset]
          by_cases hname : key = name
          · have hnone : env.get? name = none := by
              rw [← hname]
              simpa [Environment.contains] using hc
            rw [if_pos hname.symm, if_pos hname, hnone]
            rfl
          · rw [if_neg (Ne.symm hname), if_neg hname]
            rfl
        · cases h

/-- Where every variable is there, there is nothing to set. -/
theorem setAll_of_contains (h : ∀ b ∈ bs, b.2.isSome → env.contains b.1 = true) : setAll env bs = (env, none) := by
  induction bs with
  | nil => rfl
  | cons b bs ih =>
    obtain ⟨hb, hbs⟩ := List.forall_mem_cons.1 h
    obtain ⟨key, value⟩ := b
    cases value with
    | none => exact ih hbs
    | some v => rw [setAll, if_pos (hb rfl), ih hbs]

/-! ## The chosen file -/

/-- The file that is loaded: the one at the path if one is given, and else the
one called `.env` in the first of the folders, from the inside out, that has
one. -/
inductive Chooses (fs : Files) : Option String → List UInt8 → Prop
  | named {p : String} {bytes : List UInt8} : p ≠ "" → fs.read? p = some bytes → Chooses fs (some p) bytes
  | nearest {path : Option String} {k : Nat} {bytes : List UInt8} : path = none ∨ path = some "" →
    k ≤ fs.here.length → fs.contentsAt? (fs.here.take k ++ [".env"]) = some bytes →
    (∀ j, k < j → j ≤ fs.here.length → fs.contentsAt? (fs.here.take j ++ [".env"]) = none) → Chooses fs path bytes

/-- What is found when numbers are tried downwards. -/
theorem findSome?_downwards {α : Type} {f : Nat → Option α} {n : Nat} {x : α} :
    (List.range n).reverse.findSome? f = some x ↔ ∃ k < n, f k = some x ∧ ∀ j, k < j → j < n → f j = none := by
  induction n with
  | zero => simp
  | succ n ih =>
    rw [List.range_succ, List.reverse_append, List.reverse_singleton, List.singleton_append, List.findSome?_cons]
    cases hn : f n with
    | some y =>
      constructor
      · intro h
        cases h
        exact ⟨n, Nat.lt_succ_self n, hn, fun j hj hlt => absurd hj (by omega)⟩
      · intro h
        obtain ⟨k, hk, hfound, hnone⟩ := h
        by_cases hkn : k = n
        · rw [hkn, hn] at hfound
          exact hfound
        · rw [hnone n (by omega) (Nat.lt_succ_self n)] at hn
          cases hn
    | none =>
      dsimp only
      rw [ih]
      constructor
      · intro h
        obtain ⟨k, hk, hfound, hnone⟩ := h
        refine ⟨k, Nat.lt_succ_of_lt hk, hfound, fun j hj hlt => ?_⟩
        by_cases hjn : j = n
        · rw [hjn, hn]
        · exact hnone j hj (by omega)
      · intro h
        obtain ⟨k, hk, hfound, hnone⟩ := h
        have hkn : k ≠ n := by
          intro hkn
          rw [hkn, hn] at hfound
          cases hfound
        exact ⟨k, by omega, hfound, fun j hj hlt => hnone j hj (by omega)⟩

theorem nearest?_eq_some_iff {file : String} :
    fs.nearest? file = some bytes ↔ ∃ k ≤ fs.here.length, fs.contentsAt? (fs.here.take k ++ [file]) = some bytes ∧
      ∀ j, k < j → j ≤ fs.here.length → fs.contentsAt? (fs.here.take j ++ [file]) = none := by
  rw [Files.nearest?, Files.surrounding, List.findSome?_map, findSome?_downwards]
  simp only [Nat.lt_succ_iff]
  rfl

/-- A path with a null character leads to no file. -/
theorem not_hasNull_of_read? {p : String} (h : fs.read? p = some bytes) : hasNull p = false := by
  unfold Files.read? at h
  split at h
  · cases h
  · next husable =>
    have : Path.isUsable p = true := by simpa using husable
    simp only [Path.isUsable, Bool.and_eq_true, Bool.not_eq_true'] at this
    exact this.2

theorem Chooses.chosen_eq (h : Chooses fs path bytes) : chosen fs path = .ok bytes := by
  cases h with
  | @named p _ hp hread =>
    unfold chosen
    split
    · next hnone => cases hnone
    · next hempty => exact absurd (Option.some.inj hempty) hp
    · next hsome =>
      cases hsome
      rw [not_hasNull_of_read? hread, hread]
      rfl
  | nearest hpath hk hfound hnone =>
    have hnearest := nearest?_eq_some_iff.2 ⟨_, hk, hfound, hnone⟩
    rcases hpath with rfl | rfl
    · rw [chosen, hnearest]
      rfl
    · rw [chosen, hnearest]
      rfl

theorem chooses_of_chosen (h : chosen fs path = .ok bytes) : Chooses fs path bytes ∨ bytes = [] := by
  have hnearest (hpath : path = none ∨ path = some "") (h : (fs.nearest? ".env").getD [] = bytes) :
      Chooses fs path bytes ∨ bytes = [] := by
    cases hn : fs.nearest? ".env" with
    | none =>
      rw [hn] at h
      exact .inr h.symm
    | some found =>
      rw [hn] at h
      cases h
      obtain ⟨k, hk, hfound, hnone⟩ := nearest?_eq_some_iff.1 hn
      exact .inl (.nearest hpath hk hfound hnone)
  unfold chosen at h
  split at h
  · exact hnearest (.inl rfl) (Except.ok.inj h)
  · exact hnearest (.inr rfl) (Except.ok.inj h)
  · next p hp =>
    split at h
    · cases h
    · have hbytes := Except.ok.inj h
      cases hread : fs.read? p with
      | none =>
        rw [hread] at hbytes
        exact .inr hbytes.symm
      | some found =>
        rw [hread] at hbytes
        cases hbytes
        exact .inl (.named hp hread)

/-! ## Loading -/

/-- What the chosen file gives a name, unless loading is disabled. -/
def given (fs : Files) (path : Option String) (env : Environment) (name : String) : Option String :=
  if isDisabled env then none
  else
    match chosen fs path with
    | .error _ => none
    | .ok bytes =>
      match decode bytes with
      | .error _ => none
      | .ok text => (bind env (read text).bindings).value? name

/-- The value of the last statement for the name is given, of the file that is
there. -/
theorem given_eq_some_iff :
    given fs path env name = some v ↔ isDisabled env = false ∧ ∃ bytes text before raw after,
      Chooses fs path bytes ∧ decode bytes = .ok text ∧ (read text).bindings = before ++ (name, some raw) :: after ∧
      (∀ st ∈ after, st.1 ≠ name) ∧ v = expand env (bind env before) raw := by
  constructor
  · intro h
    unfold given at h
    split at h
    · cases h
    · next hd =>
      split at h
      · cases h
      · next bytes hc =>
        split at h
        · cases h
        · next text ht =>
          obtain ⟨before, raw, after, heq, hafter, hv⟩ := mem_bind_iff.1 (Bindings.mem_of_value? h)
          obtain ⟨raw, rfl⟩ : ∃ r, raw = some r := by
            rw [← Option.isSome_iff_exists, ← Option.isSome_map, ← hv]
            rfl
          refine ⟨by simpa using hd, bytes, text, before, raw, after, ?_, ht, heq, hafter, Option.some.inj hv⟩
          -- a file that is not there says nothing
          refine (chooses_of_chosen hc).resolve_right ?_
          rintro rfl
          have hempty : decode [] = .ok [] := rfl
          rw [hempty] at ht
          cases ht
          exact absurd heq.symm (List.append_ne_nil_of_right_ne_nil _ (List.cons_ne_nil _ _))
  · intro h
    obtain ⟨hd, bytes, text, before, raw, after, hchooses, ht, heq, hafter, rfl⟩ := h
    rw [given, if_neg (by simp [hd]), hchooses.chosen_eq]
    dsimp only
    rw [ht]
    exact value?_bind.2 (mem_bind_iff.2 ⟨before, some raw, after, heq, hafter, rfl⟩)

/-- All that loading can be, if it is not an error. -/
theorem load_cases (h : (load fs path env).error = none) :
    isDisabled env = true ∧ (load fs path env).environment = env ∨
    isDisabled env = false ∧ ∃ bytes text, chosen fs path = .ok bytes ∧ decode bytes = .ok text ∧
      setAll env (bind env (read text).bindings) = ((load fs path env).environment, none) := by
  unfold load at h ⊢
  cases hd : isDisabled env with
  | true => exact .inl ⟨rfl, rfl⟩
  | false =>
    rw [hd] at h
    cases hc : chosen fs path with
    | error e =>
      rw [hc] at h
      cases h
    | ok bytes =>
      rw [hc] at h
      dsimp only [Bool.false_eq_true, if_false] at h ⊢
      unfold loadBytes at h ⊢
      cases ht : decode bytes with
      | error e =>
        rw [ht] at h
        cases h
      | ok text =>
        rw [ht] at h
        exact .inr ⟨rfl, bytes, text, rfl, ht, Prod.ext rfl h⟩

/-- After loading a variable has the value that it had before, and else what the
file gives it. -/
theorem get?_load (h : (load fs path env).error = none) :
    (load fs path env).environment.get? name = (env.get? name).or (given fs path env name) := by
  rcases load_cases h with ⟨hd, henv⟩ | ⟨hd, bytes, text, hc, ht, hset⟩
  · rw [henv, given, if_pos hd, Option.or_none]
  · rw [get?_setAll hset, given, if_neg (by rw [hd]; exact Bool.false_ne_true), hc]
    dsimp only
    rw [ht]

/-- Loading again finds every variable there. -/
theorem load_again (h : (load fs path env).error = none) :
    (load fs path (load fs path env).environment).error = none ∧
      (load fs path (load fs path env).environment).environment = (load fs path env).environment := by
  rcases load_cases h with ⟨hd, henv⟩ | ⟨-, bytes, text, hc, ht, hset⟩
  · rw [henv, load, if_pos hd]
    exact ⟨rfl, rfl⟩
  · generalize (load fs path env).environment = env' at hset
    have hthere (b : String × Option String) (hb : b ∈ bind env' (read text).bindings) (hsome : b.2.isSome) :
        env'.contains b.1 = true := by
      have hshape : (b.1, true) ∈ (bind env' (read text).bindings).shape :=
        List.mem_map.2 ⟨b, hb, Prod.ext rfl hsome⟩
      have hsame : (bind env' (read text).bindings).shape = (bind env (read text).bindings).shape := shape_bind
      rw [hsame] at hshape
      rw [Environment.contains, get?_setAll hset, Option.isSome_or, Bindings.isSome_value? hshape, Bool.or_true]
    unfold load
    split
    · exact ⟨rfl, rfl⟩
    · rw [hc]
      dsimp only
      rw [loadBytes, ht]
      dsimp only
      rw [setAll_of_contains hthere]
      exact ⟨rfl, rfl⟩

end EnvFile

namespace Settings

/-- Loading only adds to the environment, and loading again adds nothing. Let the
loading of the env file not be an error by itself. Then a variable that was
there keeps its value, and one that was not has the value that the last
statement for it gives, in the file at the path or the nearest one called
`.env`; without one, or where loading is disabled, it is still not there.
This holds whether there are settings or not, and to load again at once gives
the same settings or the same error and leaves the same environment. -/
theorem load_only_adds (fs : Files) (path : Option String) (env : Environment)
    (h : (EnvFile.load fs path env).error = none) :
    (∀ name v, env.get? name = some v → (load fs path env).environment.get? name = some v) ∧
    (∀ name v, env.get? name = none → ((load fs path env).environment.get? name = some v ↔
      EnvFile.isDisabled env = false ∧ ∃ bytes text before raw after,
        EnvFile.Chooses fs path bytes ∧ EnvFile.decode bytes = .ok text ∧
        (EnvFile.read text).bindings = before ++ (name, some raw) :: after ∧ (∀ st ∈ after, st.1 ≠ name) ∧
        v = EnvFile.expand env (EnvFile.bind env before) raw)) ∧
    (load fs path (load fs path env).environment).settings = (load fs path env).settings ∧
    (load fs path (load fs path env).environment).environment = (load fs path env).environment := by
  have hget (name : String) : (load fs path env).environment.get? name = _ := EnvFile.get?_load h
  obtain ⟨herror, hagain⟩ := EnvFile.load_again h
  refine ⟨fun name v hv => ?_, fun name v hnone => ?_, ?_, hagain⟩
  · rw [hget, hv]
    rfl
  · rw [hget, hnone, Option.none_or, EnvFile.given_eq_some_iff]
  · have hfirst : (load fs path env).settings = ofEnvironment (EnvFile.load fs path env).environment := by
      simp only [load, h]
    have hsecond : (load fs path (load fs path env).environment).settings =
        ofEnvironment (EnvFile.load fs path (EnvFile.load fs path env).environment).environment := by
      simp only [load, herror]
    rw [hfirst, hsecond, hagain]

/-- Of a file `.env` around the folder, with the lines `A=1`, `C`, `A=${B}x` and
`B=2`, the third says what `A` is where `B` is 7. -/
theorem later_statement_is_loaded :
    (load ⟨[([".env"], "A=1\nC\nA=$\x7bB\x7dx\nB=2\n".toUTF8.data.toList)], [], ["work"], false⟩ none
      ⟨[("B", "7")]⟩).environment.get? "A" = some "7x" := by
  have hload : (EnvFile.load ⟨[([".env"], "A=1\nC\nA=$\x7bB\x7dx\nB=2\n".toUTF8.data.toList)], [], ["work"], false⟩
      none ⟨[("B", "7")]⟩).error = none := by decide +kernel
  refine ((load_only_adds _ _ _ hload).2.1 "A" "7x" rfl).2 ⟨by decide, _, _, [("A", some "1"), ("C", none)],
    "$\x7bB\x7dx", [("B", some "2")], .nearest (k := 0) (.inl rfl) (by decide) rfl ?_, rfl, ?_, by decide, ?_⟩
  · intro j hj hle
    obtain rfl : j = 1 := Nat.le_antisymm hle hj
    decide +kernel
  · decide +kernel
  · decide +kernel

end Settings
end TapeMachine
