/-
What the UTF-8 decoders do to bytes. A character begun can only become one
whose code is none of ASCII and none that is ruled out (`Begun.Sound`), so
an ASCII byte is never part of another character and never lost: the text
is cut there (`decodeReplacing_append`), and its ASCII characters are the
ASCII bytes (`filter_decodeReplacing`). On the bytes that encode a text
the strict decoder gives that text (`decode_encode`), and so does the lenient one
(`decodeReplacing_of_decode`).
-/
import Mathlib.Algebra.Group.Nat.Defs
import TapeMachine.Proofs.Except
import TapeMachine.Text.Utf8

namespace TapeMachine.Text.Utf8

variable {b : UInt8} {s : Begun} {state : Option Begun} {l rest : List UInt8} {t : List Char}

/-! ## Characters begun -/

/-- The least code that can come of what is begun. -/
def Begun.least (s : Begun) : Nat := (s.code * 64 + (s.low.toNat - 0x80)) * 64 ^ (s.missing - 1)

/-- All codes that can come of what is begun are below this one. -/
def Begun.bound (s : Begun) : Nat := (s.code * 64 + (s.high.toNat - 0x80) + 1) * 64 ^ (s.missing - 1)

/-- What holds of a character begun, whatever bytes it was begun with. -/
structure Begun.Sound (s : Begun) : Prop where
  missing : s.missing = 1 ∨ s.missing = 2 ∨ s.missing = 3
  low : 0x80 ≤ s.low.toNat
  high : s.high.toNat ≤ 0xbf
  ascii : 0x80 ≤ s.least
  valid : s.bound ≤ 0xd800 ∨ 0xe000 ≤ s.least ∧ s.bound ≤ 0x110000

/-- What can be begun, by the number of the byte. -/
theorem lead?_eq :
    lead? b =
      if 0xc2 ≤ b.toNat ∧ b.toNat ≤ 0xdf then some ⟨[b], b.toNat - 0xc0, 1, 0x80, 0xbf⟩
      else if 0xe0 ≤ b.toNat ∧ b.toNat ≤ 0xef then
        some ⟨[b], b.toNat - 0xe0, 2, if b = 0xe0 then 0xa0 else 0x80, if b = 0xed then 0x9f else 0xbf⟩
      else if 0xf0 ≤ b.toNat ∧ b.toNat ≤ 0xf4 then
        some ⟨[b], b.toNat - 0xf0, 3, if b = 0xf0 then 0x90 else 0x80, if b = 0xf4 then 0x8f else 0xbf⟩
      else none := by
  simp only [lead?, Bool.and_eq_true, decide_eq_true_eq, UInt8.le_iff_toNat_le]
  rfl

theorem sound_of_lead? (h : lead? b = some s) : s.Sound := by
  have hne {n : UInt8} (hb : b ≠ n) : b.toNat ≠ n.toNat := fun he => hb (UInt8.toNat_inj.1 he)
  rw [lead?_eq] at h
  split at h
  · cases h
    refine ⟨.inl rfl, Nat.le_refl _, Nat.le_refl _, ?_, .inl ?_⟩
    · simp [Begun.least]
      omega
    · simp [Begun.bound]
      omega
  · split at h
    · cases h
      by_cases h₀ : b = 0xe0
      · subst h₀
        exact ⟨.inr (.inl rfl), by decide, by decide, by decide, by decide⟩
      · by_cases h₁ : b = 0xed
        · subst h₁
          exact ⟨.inr (.inl rfl), by decide, by decide, by decide, by decide⟩
        · have := hne h₀
          have := hne h₁
          rw [if_neg h₀, if_neg h₁]
          refine ⟨.inr (.inl rfl), Nat.le_refl _, Nat.le_refl _, ?_, ?_⟩
          · simp [Begun.least] at *
            omega
          · simp [Begun.least, Begun.bound] at *
            omega
    · split at h
      · cases h
        by_cases h₀ : b = 0xf0
        · subst h₀
          exact ⟨.inr (.inr rfl), by decide, by decide, by decide, by decide⟩
        · by_cases h₁ : b = 0xf4
          · subst h₁
            exact ⟨.inr (.inr rfl), by decide, by decide, by decide, by decide⟩
          · have := hne h₀
            have := hne h₁
            rw [if_neg h₀, if_neg h₁]
            refine ⟨.inr (.inr rfl), Nat.le_refl _, Nat.le_refl _, ?_, ?_⟩
            · simp [Begun.least] at *
              omega
            · simp [Begun.least, Begun.bound] at *
              omega
      · cases h

/-! ## One byte -/

/-- The character that is seen in the place of a piece. -/
def Piece.shown : Piece → Char
  | .char c => c
  | .wrong _ _ => replacement

theorem first_ascii (hb : b.toNat < 0x80) : first b = ([.char (Char.ofUInt8 b)], none) :=
  if_pos (UInt8.lt_iff_toNat_lt.2 hb)

/-- A byte beyond ASCII begins a character or is wrong by itself. -/
theorem first_beyond (hb : 0x80 ≤ b.toNat) :
    (∃ s, s.Sound ∧ first b = ([], some s)) ∨ first b = ([.wrong [b] .start], none) := by
  have hn : ¬ b < 0x80 := fun h => Nat.not_lt.2 hb (UInt8.lt_iff_toNat_lt.1 h)
  unfold first
  rw [if_neg hn]
  cases hl : lead? b with
  | none => exact .inr rfl
  | some s => exact .inl ⟨s, sound_of_lead? hl, rfl⟩

theorem toNat_ofNat {n : Nat} (h : n.isValidChar) : (Char.ofNat n).toNat = n := by
  rw [Char.ofNat, dif_pos h]
  rfl

/-- A byte that cannot go on with what is begun stands where nothing is. -/
theorem next_refused (hb : ¬ (s.low.toNat ≤ b.toNat ∧ b.toNat ≤ s.high.toNat)) :
    next (some s) b = (.wrong s.bytes .continuation :: (first b).1, (first b).2) := by
  have hn : ¬ (s.low ≤ b && b ≤ s.high) = true := by
    simpa [UInt8.le_iff_toNat_le] using hb
  simp only [next, hn]
  rfl

theorem next_last (hb : s.low.toNat ≤ b.toNat ∧ b.toNat ≤ s.high.toNat) (hm : s.missing ≤ 1) :
    next (some s) b = ([.char (Char.ofNat (s.code * 64 + (b.toNat - 0x80)))], none) := by
  have hp : (s.low ≤ b && b ≤ s.high) = true := by
    simpa [UInt8.le_iff_toNat_le] using hb
  simp only [next, hp, hm]
  rfl

/-- What is begun after a byte that goes on with it and does not complete it. -/
def Begun.more (s : Begun) (b : UInt8) : Begun where
  bytes := s.bytes ++ [b]
  code := s.code * 64 + (b.toNat - 0x80)
  missing := s.missing - 1

theorem next_more (hb : s.low.toNat ≤ b.toNat ∧ b.toNat ≤ s.high.toNat) (hm : 1 < s.missing) :
    next (some s) b = ([], some (s.more b)) := by
  have hp : (s.low ≤ b && b ≤ s.high) = true := by
    simpa [UInt8.le_iff_toNat_le] using hb
  have hn : ¬ s.missing ≤ 1 := Nat.not_le.2 hm
  simp only [next, hp, hn]
  rfl

namespace Begun.Sound

variable {v : Nat}

theorem isValidChar (hs : s.Sound) (hv : s.least ≤ v ∧ v < s.bound) : v.isValidChar := by
  have hvalid := hs.valid
  unfold Nat.isValidChar
  omega

/-- The last byte makes one of the codes that can come. -/
theorem code_last (hs : s.Sound) (hb : s.low.toNat ≤ b.toNat ∧ b.toNat ≤ s.high.toNat) (hm : s.missing ≤ 1) :
    s.least ≤ s.code * 64 + (b.toNat - 0x80) ∧ s.code * 64 + (b.toNat - 0x80) < s.bound := by
  have hm' : s.missing - 1 = 0 := by omega
  have hlow := hs.low
  rw [least, bound, hm', Nat.pow_zero, Nat.mul_one, Nat.mul_one]
  omega

/-- With every byte there are fewer codes that can come. -/
theorem bounds_more (hs : s.Sound) (hb : s.low.toNat ≤ b.toNat ∧ b.toNat ≤ s.high.toNat) (hm : 1 < s.missing) :
    s.least ≤ (s.more b).least ∧ (s.more b).bound ≤ s.bound := by
  obtain ⟨hmissing, hlow, hhigh, -, -⟩ := hs
  have hlast : (0xbf : UInt8).toNat - 0x80 = 63 := rfl
  have hfirst : (0x80 : UInt8).toNat - 0x80 = 0 := rfl
  rcases hmissing with h | h | h
  · omega
  · simp only [least, bound, more, h, hlast, hfirst, Nat.reduceSub, Nat.reducePow]
    omega
  · simp only [least, bound, more, h, hlast, hfirst, Nat.reduceSub, Nat.reducePow]
    omega

theorem more (hs : s.Sound) (hb : s.low.toNat ≤ b.toNat ∧ b.toNat ≤ s.high.toNat) (hm : 1 < s.missing) :
    (s.more b).Sound := by
  obtain ⟨hleast, hbound⟩ := hs.bounds_more hb hm
  obtain ⟨hmissing, -, -, hascii, hvalid⟩ := hs
  refine ⟨?_, Nat.le_refl _, Nat.le_refl _, by omega, by omega⟩
  dsimp only [Begun.more]
  omega

end Begun.Sound

/-- A byte that goes on with what is begun makes a character of it, or there are
fewer codes that can come of it. -/
theorem next_accepted (hs : s.Sound) (hb : s.low.toNat ≤ b.toNat ∧ b.toNat ≤ s.high.toNat) :
    (∃ c, 0x80 ≤ c.toNat ∧ next (some s) b = ([.char c], none)) ∨
      ∃ s', s'.Sound ∧ next (some s) b = ([], some s') := by
  by_cases hm : s.missing ≤ 1
  · have hcode := hs.code_last hb hm
    refine .inl ⟨_, ?_, next_last hb hm⟩
    rw [toNat_ofNat (hs.isValidChar hcode)]
    exact Nat.le_trans hs.ascii hcode.1
  · exact .inr ⟨_, hs.more hb (Nat.not_le.1 hm), next_more hb (Nat.not_le.1 hm)⟩

/-- A reader is between characters or has a sound one begun. -/
def Steady (state : Option Begun) : Prop := ∀ s, state = some s → s.Sound

theorem Steady.none : Steady none := nofun

theorem Steady.some (hs : s.Sound) : Steady (some s) := fun _ h => Option.some.inj h ▸ hs

/-- What is seen of the bytes that follow what is begun. -/
def seen (state : Option Begun) (l : List UInt8) : List Char := (piecesFrom state l).map Piece.shown

theorem seen_cons : seen state (b :: l) = (next state b).1.map Piece.shown ++ seen (next state b).2 l := by
  cases state <;> simp [seen, piecesFrom]

/-- An ASCII byte ends what is begun and is seen as itself. -/
theorem seen_cons_ascii (h : Steady state) (hb : b.toNat < 0x80) :
    seen state (b :: l) = seen state [] ++ Char.ofUInt8 b :: seen none l := by
  rw [seen_cons]
  cases state with
  | none =>
    rw [next, first_ascii hb]
    rfl
  | some s =>
    have hlow := (h s rfl).low
    rw [next_refused (by omega), first_ascii hb]
    rfl

theorem replacement_beyond : 0x80 ≤ replacement.toNat := by decide

/-- Of another byte nothing is seen that is ASCII. -/
theorem next_beyond (h : Steady state) (hb : 0x80 ≤ b.toNat) :
    (∀ c ∈ (next state b).1.map Piece.shown, 0x80 ≤ c.toNat) ∧ Steady (next state b).2 := by
  have hfirst : (∀ c ∈ (first b).1.map Piece.shown, 0x80 ≤ c.toNat) ∧ Steady (first b).2 := by
    rcases first_beyond hb with ⟨s, hs, hf⟩ | hf
    · rw [hf]
      exact ⟨nofun, .some hs⟩
    · rw [hf]
      exact ⟨fun c hc => List.mem_singleton.1 hc ▸ replacement_beyond, .none⟩
  cases state with
  | none => exact hfirst
  | some s =>
    by_cases ha : s.low.toNat ≤ b.toNat ∧ b.toNat ≤ s.high.toNat
    · rcases next_accepted (h s rfl) ha with ⟨c, hc, hn⟩ | ⟨s', hs', hn⟩
      · rw [hn]
        exact ⟨fun d hd => List.mem_singleton.1 hd ▸ hc, .none⟩
      · rw [hn]
        exact ⟨nofun, .some hs'⟩
    · rw [next_refused ha]
      refine ⟨fun c hc => ?_, hfirst.2⟩
      rcases List.mem_cons.1 hc with rfl | hc
      · exact replacement_beyond
      · exact hfirst.1 c hc

/-! ## Stretches of bytes -/

/-- The text is cut at an ASCII byte, whatever is on either side of it. -/
theorem seen_append (h : Steady state) (hb : b.toNat < 0x80) :
    seen state (l ++ b :: rest) = seen state l ++ Char.ofUInt8 b :: seen none rest := by
  induction l generalizing state with
  | nil => exact seen_cons_ascii h hb
  | cons a l ih =>
    by_cases ha : a.toNat < 0x80
    · rw [List.cons_append, seen_cons_ascii h ha, seen_cons_ascii h ha, ih .none, List.append_assoc,
        List.cons_append]
    · rw [List.cons_append, seen_cons, seen_cons, ih (next_beyond h (Nat.le_of_not_lt ha)).2, List.append_assoc]

theorem filter_beyond {t : List Char} (h : ∀ c ∈ t, 0x80 ≤ c.toNat) : t.filter (·.toNat < 0x80) = [] :=
  List.filter_eq_nil_iff.2 fun c hc => by simpa using h c hc

theorem filter_seen (h : Steady state) :
    (seen state l).filter (·.toNat < 0x80) = (l.filter (·.toNat < 0x80)).map Char.ofUInt8 := by
  have hnil {state : Option Begun} : (seen state []).filter (·.toNat < 0x80) = [] := by
    cases state with
    | none => rfl
    | some s => exact filter_beyond fun c hc => List.mem_singleton.1 hc ▸ replacement_beyond
  induction l generalizing state with
  | nil => exact hnil
  | cons b l ih =>
    by_cases hb : b.toNat < 0x80
    · have hchar : (Char.ofUInt8 b).toNat < 0x80 := hb
      rw [seen_cons_ascii h hb, List.filter_append, hnil, List.nil_append,
        List.filter_cons_of_pos (by simpa using hchar), ih .none, List.filter_cons_of_pos (by simpa using hb),
        List.map_cons]
    · obtain ⟨hseen, hsteady⟩ := next_beyond h (Nat.le_of_not_lt hb)
      rw [seen_cons, List.filter_append, filter_beyond hseen, List.nil_append, ih hsteady,
        List.filter_cons_of_neg (by simpa using hb)]

/-- A byte completes something or something is begun after it. -/
theorem next_completes_or_begins : (next state b).1 ≠ [] ∨ (next state b).2 ≠ none := by
  have hfirst : (first b).1 ≠ [] ∨ (first b).2 ≠ none := by
    by_cases hb : b.toNat < 0x80
    · rw [first_ascii hb]
      exact .inl (List.cons_ne_nil _ _)
    · rcases first_beyond (Nat.le_of_not_lt hb) with ⟨s, -, hf⟩ | hf
      · rw [hf]
        exact .inr (Option.some_ne_none s)
      · rw [hf]
        exact .inl (List.cons_ne_nil _ _)
  cases state with
  | none => exact hfirst
  | some s =>
    by_cases ha : s.low.toNat ≤ b.toNat ∧ b.toNat ≤ s.high.toNat
    · by_cases hm : s.missing ≤ 1
      · rw [next_last ha hm]
        exact .inl (List.cons_ne_nil _ _)
      · rw [next_more ha (Nat.not_le.1 hm)]
        exact .inr (Option.some_ne_none _)
    · rw [next_refused ha]
      exact .inl (List.cons_ne_nil _ _)

theorem seen_ne_nil (h : state ≠ none ∨ l ≠ []) : seen state l ≠ [] := by
  induction l generalizing state with
  | nil =>
    cases state with
    | none => exact absurd rfl (h.resolve_right fun h => h rfl)
    | some s => exact List.cons_ne_nil _ _
  | cons b l ih =>
    rw [seen_cons]
    have hnext : (next state b).1 ≠ [] ∨ (next state b).2 ≠ none := next_completes_or_begins
    rcases hnext with hout | hbegun
    · exact List.append_ne_nil_of_left_ne_nil (fun h => hout (List.map_eq_nil_iff.1 h)) _
    · exact List.append_ne_nil_of_right_ne_nil _ (ih (.inl hbegun))

theorem decodeReplacing_ne_nil (h : l ≠ []) : decodeReplacing l ≠ [] := seen_ne_nil (.inr h)

theorem decodeReplacing_append (hb : b.toNat < 0x80) :
    decodeReplacing (l ++ b :: rest) = decodeReplacing l ++ Char.ofUInt8 b :: decodeReplacing rest :=
  seen_append .none hb

/-- The ASCII characters of the text are the ASCII bytes. -/
theorem filter_decodeReplacing :
    (decodeReplacing l).filter (·.toNat < 0x80) = (l.filter (·.toNat < 0x80)).map Char.ofUInt8 :=
  filter_seen .none

/-! ## Encoded texts -/

/-- The bytes of a text. -/
def encode (t : List Char) : List UInt8 := t.flatMap String.utf8EncodeChar

/-- Bytes that are those of a text. -/
def WellFormed (l : List UInt8) : Prop := ∃ t, encode t = l

theorem piecesFrom_lead (hb : 0x80 ≤ b.toNat) (h : lead? b = some s) :
    piecesFrom none (b :: l) = piecesFrom (some s) l := by
  have hn : ¬ b < 0x80 := fun h => Nat.not_lt.2 hb (UInt8.lt_iff_toNat_lt.1 h)
  simp only [piecesFrom, next, first, hn, h]
  rfl

theorem piecesFrom_more (hb : s.low.toNat ≤ b.toNat ∧ b.toNat ≤ s.high.toNat) (hm : 1 < s.missing) :
    piecesFrom (some s) (b :: l) =
      piecesFrom (some ⟨s.bytes ++ [b], s.code * 64 + (b.toNat - 0x80), s.missing - 1, 0x80, 0xbf⟩) l := by
  rw [piecesFrom, next_more hb hm]
  rfl

theorem piecesFrom_last (hb : s.low.toNat ≤ b.toNat ∧ b.toNat ≤ s.high.toNat) (hm : s.missing ≤ 1) :
    piecesFrom (some s) (b :: l) = .char (Char.ofNat (s.code * 64 + (b.toNat - 0x80))) :: piecesFrom none l := by
  rw [piecesFrom, next_last hb hm]
  rfl

section

variable {b₀ b₁ b₂ b₃ : UInt8} {v : Nat}

theorem tail_bounds (h : b.toNat = v % 64 + 0x80) :
    (0x80 : UInt8).toNat ≤ b.toNat ∧ b.toNat ≤ (0xbf : UInt8).toNat := by
  have hlow : (0x80 : UInt8).toNat = 0x80 := rfl
  have hhigh : (0xbf : UInt8).toNat = 0xbf := rfl
  omega

/-- The bounds of a second byte, of which `b₀ = lo` and `b₀ = hi` rule some out. -/
theorem second_bounds (b₀ lo low hi high : UInt8) (h₁ : b₁.toNat = v % 64 + 0x80)
    (hlow : b₀.toNat = lo.toNat → low.toNat ≤ b₁.toNat) (hhigh : b₀.toNat = hi.toNat → b₁.toNat ≤ high.toNat) :
    (if b₀ = lo then low else 0x80).toNat ≤ b₁.toNat ∧ b₁.toNat ≤ (if b₀ = hi then high else 0xbf).toNat := by
  have htail := tail_bounds h₁
  constructor
  · split
    · next h => exact hlow (congrArg UInt8.toNat h)
    · exact htail.1
  · split
    · next h => exact hhigh (congrArg UInt8.toNat h)
    · exact htail.2

theorem piecesFrom_one (h₀ : b₀.toNat = v) (hv : v < 0x80) :
    piecesFrom none (b₀ :: l) = .char (Char.ofNat v) :: piecesFrom none l := by
  have hchar : Char.ofUInt8 b₀ = Char.ofNat v := by
    rw [← h₀]
    exact (Char.ofNat_toNat (Char.ofUInt8 b₀)).symm
  rw [piecesFrom, next, first_ascii (by omega), hchar]
  rfl

theorem piecesFrom_two (h₀ : b₀.toNat = v / 64 + 0xc0) (h₁ : b₁.toNat = v % 64 + 0x80)
    (hv : 0x80 ≤ v ∧ v < 0x800) :
    piecesFrom none (b₀ :: b₁ :: l) = .char (Char.ofNat v) :: piecesFrom none l := by
  have hlead := lead?_eq (b := b₀)
  rw [if_pos (by omega)] at hlead
  have hcode : (b₀.toNat - 0xc0) * 64 + (b₁.toNat - 0x80) = v := by omega
  rw [piecesFrom_lead (by omega) hlead, piecesFrom_last (tail_bounds h₁) (Nat.le_refl _), hcode]

theorem piecesFrom_three (h₀ : b₀.toNat = v / 4096 + 0xe0) (h₁ : b₁.toNat = v / 64 % 64 + 0x80)
    (h₂ : b₂.toNat = v % 64 + 0x80) (hv : 0x800 ≤ v ∧ v < 0x10000) (hs : v < 0xd800 ∨ 0xdfff < v) :
    piecesFrom none (b₀ :: b₁ :: b₂ :: l) = .char (Char.ofNat v) :: piecesFrom none l := by
  have hlead := lead?_eq (b := b₀)
  rw [if_neg (by omega), if_pos (by omega)] at hlead
  have hsecond := second_bounds b₀ 0xe0 0xa0 0xed 0x9f h₁
    (fun h => by
      change b₀.toNat = 0xe0 at h
      change 0xa0 ≤ b₁.toNat
      omega)
    (fun h => by
      change b₀.toNat = 0xed at h
      change b₁.toNat ≤ 0x9f
      omega)
  have hcode : ((b₀.toNat - 0xe0) * 64 + (b₁.toNat - 0x80)) * 64 + (b₂.toNat - 0x80) = v := by omega
  rw [piecesFrom_lead (by omega) hlead, piecesFrom_more hsecond (Nat.lt_add_one 1),
    piecesFrom_last (tail_bounds h₂) (Nat.le_refl _), hcode]

theorem piecesFrom_four (h₀ : b₀.toNat = v / 262144 + 0xf0) (h₁ : b₁.toNat = v / 4096 % 64 + 0x80)
    (h₂ : b₂.toNat = v / 64 % 64 + 0x80) (h₃ : b₃.toNat = v % 64 + 0x80) (hv : 0x10000 ≤ v ∧ v < 0x110000) :
    piecesFrom none (b₀ :: b₁ :: b₂ :: b₃ :: l) = .char (Char.ofNat v) :: piecesFrom none l := by
  have hlead := lead?_eq (b := b₀)
  rw [if_neg (by omega), if_neg (by omega), if_pos (by omega)] at hlead
  have hsecond := second_bounds b₀ 0xf0 0x90 0xf4 0x8f h₁
    (fun h => by
      change b₀.toNat = 0xf0 at h
      change 0x90 ≤ b₁.toNat
      omega)
    (fun h => by
      change b₀.toNat = 0xf4 at h
      change b₁.toNat ≤ 0x8f
      omega)
  have hcode : (((b₀.toNat - 0xf0) * 64 + (b₁.toNat - 0x80)) * 64 + (b₂.toNat - 0x80)) * 64 + (b₃.toNat - 0x80) =
      v := by omega
  rw [piecesFrom_lead (by omega) hlead, piecesFrom_more hsecond (Nat.lt_succ_of_lt (Nat.lt_add_one 1)),
    piecesFrom_more (tail_bounds h₂) (Nat.lt_add_one 1), piecesFrom_last (tail_bounds h₃) (Nat.le_refl _), hcode]

end

/-- The bytes of a character are read as that character. -/
theorem piecesFrom_encodeChar {c : Char} :
    piecesFrom none (String.utf8EncodeChar c ++ l) = .char c :: piecesFrom none l := by
  have hvalid : c.toNat < 0xd800 ∨ 0xdfff < c.toNat ∧ c.toNat < 0x110000 := c.valid
  have hbyte {n : Nat} (h : n < 256) : (UInt8.ofNat n).toNat = n := UInt8.toNat_ofNat_of_lt h
  have hval : c.val.toNat = c.toNat := rfl
  suffices piecesFrom none (String.utf8EncodeChar c ++ l) = .char (Char.ofNat c.toNat) :: piecesFrom none l by
    rwa [Char.ofNat_toNat] at this
  rw [String.utf8EncodeChar, hval]
  generalize c.toNat = v at hvalid
  split
  · exact piecesFrom_one (hbyte (by omega)) (by omega)
  · split
    · exact piecesFrom_two (by rw [hbyte (by omega)]; omega) (hbyte (by omega)) (by omega)
    · split
      · exact piecesFrom_three (by rw [hbyte (by omega)]; omega) (hbyte (by omega)) (hbyte (by omega)) (by omega)
          (by omega)
      · exact piecesFrom_four (by rw [hbyte (by omega)]; omega) (hbyte (by omega)) (hbyte (by omega))
          (hbyte (by omega)) (by omega)

/-- The bytes of a text are read as its characters and nothing else. -/
theorem pieces_encode : pieces (encode t) = t.map .char := by
  induction t with
  | nil => rfl
  | cons c t ih =>
    rw [encode, List.flatMap_cons, pieces, piecesFrom_encodeChar]
    exact congrArg (.char c :: ·) ih

theorem charactersFrom_char {n : Nat} : charactersFrom n (t.map .char) = .ok t := by
  induction t generalizing n with
  | nil => rfl
  | cons c t ih =>
    rw [List.map_cons, charactersFrom, ih]
    rfl

theorem decode_encode : decode (encode t) = .ok t := by
  rw [decode, pieces_encode, charactersFrom_char]

theorem exists_decode (h : WellFormed l) : ∃ t, decode l = .ok t := by
  obtain ⟨t, rfl⟩ := h
  exact ⟨t, decode_encode⟩

theorem eq_of_charactersFrom {n : Nat} {ps : List Piece} (h : charactersFrom n ps = .ok t) : ps = t.map .char := by
  induction ps generalizing n t with
  | nil =>
    cases h
    rfl
  | cons piece ps ih =>
    cases piece with
    | wrong => cases h
    | char c =>
      obtain ⟨u, hrest, rfl⟩ := map_eq_ok_iff.1 h
      rw [ih hrest, List.map_cons]

/-- Where the strict decoder does not fail, there is nothing to replace. -/
theorem decodeReplacing_of_decode (h : decode l = .ok t) : decodeReplacing l = t := by
  rw [decodeReplacing, eq_of_charactersFrom h, List.map_map]
  exact List.map_id t

end TapeMachine.Text.Utf8
