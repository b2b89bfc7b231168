/-
Texts whose loops all close. There are two ways to say so: by counting,
where the number of open loops never falls below none and ends at none, and
by structure, where the text is that of a block. They agree
(`balanced_iff`), so what holds of balanced texts can be shown by induction
on blocks.
-/
import TapeMachine.Program

namespace TapeMachine

/-- A character that is no bracket. -/
abbrev Plain := { c : Char // c ≠ '[' ∧ c ≠ ']' }

/-- How many loops are open after a text that begins inside `depth` of them;
`none` if it closes one that was never entered. -/
def nesting : Nat → List Char → Option Nat
  | depth, [] => some depth
  | depth, c :: t =>
    if c = '[' then nesting (depth + 1) t
    else if c = ']' then
      match depth with
      | 0 => none
      | d + 1 => nesting d t
    else nesting depth t

/-- Every bracket of the text has its partner in the text. -/
def Balanced (t : List Char) : Prop := nesting 0 t = some 0

instance (t : List Char) : Decidable (Balanced t) := inferInstanceAs (Decidable (nesting 0 t = some 0))

@[simp] theorem nesting_nil {d : Nat} : nesting d [] = some d := by simp [nesting]

@[simp] theorem nesting_enter {d : Nat} {t : List Char} : nesting d ('[' :: t) = nesting (d + 1) t := by
  simp [nesting]

@[simp] theorem nesting_leave_zero {t : List Char} : nesting 0 (']' :: t) = none := by simp [nesting]

@[simp] theorem nesting_leave_succ {d : Nat} {t : List Char} :
    nesting (d + 1) (']' :: t) = nesting d t := by simp [nesting]

@[simp] theorem nesting_plain {d : Nat} {c : Plain} {t : List Char} :
    nesting d (c.1 :: t) = nesting d t := by simp [nesting, c.2.1, c.2.2]

/-- A character is a bracket or it is not. -/
theorem char_cases (c : Char) : c = '[' ∨ c = ']' ∨ ∃ q : Plain, q.1 = c := by
  by_cases h₁ : c = '['
  · exact .inl h₁
  · by_cases h₂ : c = ']'
    · exact .inr (.inl h₂)
    · exact .inr (.inr ⟨⟨c, h₁, h₂⟩, rfl⟩)

/-! ## Blocks -/

/-- A text cut up along its loops. -/
inductive Block
  | done
  | plain (c : Plain) (rest : Block)
  | loop (body rest : Block)

namespace Block

def text : Block → List Char
  | done => []
  | plain c rest => c.1 :: rest.text
  | loop body rest => '[' :: (body.text ++ ']' :: rest.text)

/-- A block leaves the loops around it as they are. -/
@[simp] theorem nesting_text {b : Block} {d : Nat} {t : List Char} :
    nesting d (b.text ++ t) = nesting d t := by
  induction b generalizing d t with
  | done => rfl
  | plain c rest ih => rw [text, List.cons_append, nesting_plain, ih]
  | loop body rest ihb ihr =>
    rw [text, List.cons_append, nesting_enter, List.append_assoc, ihb, List.cons_append,
      nesting_leave_succ, ihr]

/-- A text that closes all of `d` loops it begins in is a block up to the end
of the innermost of them, and the whole of it if there is none. -/
theorem exists_of_nesting {t : List Char} {d : Nat} (h : nesting d t = some 0) :
    ∃ (b : Block) (u : List Char), t = b.text ++ u ∧
      (d = 0 ∧ u = [] ∨ ∃ e v, d = e + 1 ∧ u = ']' :: v ∧ nesting e v = some 0) := by
  -- the text after a loop is no part of the text but its first character
  obtain ⟨n, hn⟩ : ∃ n, t.length ≤ n := ⟨_, Nat.le_refl _⟩
  induction n generalizing t d with
  | zero =>
    obtain rfl : t = [] := List.eq_nil_of_length_eq_zero (by omega)
    exact ⟨done, [], rfl, .inl ⟨by simpa using h, rfl⟩⟩
  | succ n ih =>
    cases t with
    | nil => exact ⟨done, [], rfl, .inl ⟨by simpa using h, rfl⟩⟩
    | cons c t =>
      have ht : t.length ≤ n := by simpa using hn
      rcases char_cases c with rfl | rfl | ⟨c, rfl⟩
      · rw [nesting_enter] at h
        obtain ⟨body, u, rfl, ⟨h₀, -⟩ | ⟨e, v, he, rfl, hv⟩⟩ := ih h ht
        · omega
        · obtain rfl : d = e := by omega
          have hlen : v.length ≤ n := by
            simp only [List.length_append, List.length_cons] at ht
            omega
          obtain ⟨rest, w, rfl, hw⟩ := ih hv hlen
          exact ⟨loop body rest, w, by simp [text], hw⟩
      · cases d with
        | zero => simp at h
        | succ d => exact ⟨done, ']' :: t, rfl, .inr ⟨d, t, rfl, rfl, by simpa using h⟩⟩
      · rw [nesting_plain] at h
        obtain ⟨b, u, rfl, hu⟩ := ih h ht
        exact ⟨plain c b, u, rfl, hu⟩

end Block

/-- The balanced texts are those of blocks. -/
theorem balanced_iff {t : List Char} : Balanced t ↔ ∃ b : Block, b.text = t := by
  constructor
  · intro h
    obtain ⟨b, u, rfl, ⟨-, rfl⟩ | ⟨e, v, he, -⟩⟩ := Block.exists_of_nesting h
    · exact ⟨b, (List.append_nil _).symm⟩
    · omega
  · intro hb
    obtain ⟨b, rfl⟩ := hb
    have h := Block.nesting_text (b := b) (d := 0) (t := [])
    rwa [List.append_nil, nesting_nil] at h

theorem Balanced.nil : Balanced [] := rfl

theorem Balanced.nesting_append {t u : List Char} {d : Nat} (h : Balanced t) :
    nesting d (t ++ u) = nesting d u := by
  obtain ⟨b, rfl⟩ := balanced_iff.1 h
  exact Block.nesting_text

end TapeMachine
