/-
The environment: variables by name, each name once.
-/

namespace TapeMachine

structure Environment where
  entries : List (String × String) := []
deriving DecidableEq, Repr

namespace Environment

def get? (env : Environment) (name : String) : Option String := env.entries.lookup name

def contains (env : Environment) (name : String) : Bool := (env.get? name).isSome

def erase (env : Environment) (name : String) : Environment := ⟨env.entries.filter (·.1 ≠ name)⟩

/-- A variable given a value, whether it had one or not. -/
def insert (env : Environment) (name value : String) : Environment :=
  ⟨(env.erase name).entries ++ [(name, value)]⟩

/-- The variables of a list, a later one of a name before an earlier. -/
def ofList (l : List (String × String)) : Environment :=
  l.foldl (fun env (name, value) => env.insert name value) {}

/-! ## Look-ups -/

@[simp] theorem get?_erase_self {env : Environment} {name : String} : (env.erase name).get? name = none := by
  simp only [get?, erase, List.lookup_eq_none_iff, List.mem_filter]
  rintro ⟨a, b⟩ ⟨-, ha⟩
  simp only [ne_eq, decide_not, Bool.not_eq_true', decide_eq_false_iff_not] at ha
  simpa using fun h : name = a => ha h.symm

theorem get?_erase_other {env : Environment} {name other : String} (h : other ≠ name) :
    (env.erase name).get? other = env.get? other := by
  obtain ⟨l⟩ := env
  induction l with
  | nil => rfl
  | cons e l ih =>
    obtain ⟨a, b⟩ := e
    simp only [get?, erase] at ih ⊢
    by_cases ha : a = name
    · subst ha
      have hne : (other == a) = false := by simpa using h
      rw [List.filter_cons_of_neg (by simp), ih, List.lookup_cons, hne]
    · rw [List.filter_cons_of_pos (by simpa using ha), List.lookup_cons, List.lookup_cons, ih]

@[simp] theorem get?_insert_self {env : Environment} {name value : String} :
    (env.insert name value).get? name = some value := by
  have h := @get?_erase_self env name
  simp only [get?] at h
  simp [get?, insert, List.lookup_append, h]

theorem get?_insert_other {env : Environment} {name other value : String} (h : other ≠ name) :
    (env.insert name value).get? other = env.get? other := by
  have he := @get?_erase_other env name other h
  have hne : (other == name) = false := by simpa using h
  simp only [get?] at he
  simp [get?, insert, List.lookup_append, he, List.lookup_cons, hne]

end Environment
end TapeMachine
