/-
What the UTF-8 decoders do to bytes that no text has. The pieces that a reader
makes are all the bytes, in their order (`bytes_pieces`): of what is begun it
keeps the bytes, and they and those that are to come write the character that
comes of it (`Begun.Spells`). So the bytes before the first wrong piece are the
bytes of a text, and no longer stretch of the first bytes is
(`decode_eq_error`).
-/
import Mathlib.Order.Bounds.Basic
import TapeMachine.Proofs.Utf8

namespace TapeMachine.Text.Utf8

variable {b : UInt8} {s : Begun} {state : Option Begun} {l : List UInt8} {t : List Char} {e : Malformed}
  {ps : List Piece} {v n : Nat}

/-! ## Characters in bytes -/

/-- The last `n` bytes of a character of code `v`. -/
def continuation : Nat → Nat → List UInt8
  | 0, _ => []
  | n + 1, v => .ofNat (v / 64 ^ n % 64 + 0x80) :: continuation n v

/-- Every character that can come of what is begun is written by its bytes and those that
are to come. -/
def Begun.Spells (s : Begun) : Prop :=
  ∀ v, s.least ≤ v ∧ v < s.bound → String.utf8EncodeChar (Char.ofNat v) = s.bytes ++ continuation s.missing v

theorem encodeChar_ofNat (hv : v.isValidChar) :
    String.utf8EncodeChar (Char.ofNat v) =
      if v ≤ 0x7f then [.ofNat v]
      else if v ≤ 0x7ff then .ofNat (v / 64 + 0xc0) :: continuation 1 v
      else if v ≤ 0xffff then .ofNat (v / 4096 + 0xe0) :: continuation 2 v
      else .ofNat (v / 262144 + 0xf0) :: continuation 3 v := by
  have hval : (Char.ofNat v).val.toNat = v := toNat_ofNat hv
  have hmax : v < 0x110000 := by
    unfold Nat.isValidChar at hv
    omega
  rw [String.utf8EncodeChar, hval]
  simp only [continuation, Nat.reducePow, Nat.div_one]
  split
  · rfl
  · split
    · rw [Nat.mod_eq_of_lt (a := v / 64) (by omega)]
    · split
      · rw [Nat.mod_eq_of_lt (a := v / 4096) (by omega)]
      · rw [Nat.mod_eq_of_lt (a := v / 262144) (by omega)]

/-- What is begun carries the first digits of the code, to the base 64; each byte that is
to come has one more. -/
theorem Begun.Sound.div_eq_code (hs : s.Sound) (hv : s.least ≤ v ∧ v < s.bound) : v / 64 ^ s.missing = s.code := by
  obtain ⟨hmissing, hlow, hhigh, -, -⟩ := hs
  rw [least, bound] at hv
  rcases hmissing with hm | hm | hm
  · simp only [hm, Nat.reducePow, Nat.reduceSub] at hv ⊢
    omega
  · simp only [hm, Nat.reducePow, Nat.reduceSub] at hv ⊢
    omega
  · simp only [hm, Nat.reducePow, Nat.reduceSub] at hv ⊢
    omega

theorem spells_of_lead? (h : lead? b = some s) : s.Spells := by
  intro v hv
  have hs := sound_of_lead? h
  have hcode := hs.div_eq_code hv
  have hascii : 0x80 ≤ v := Nat.le_trans hs.ascii hv.1
  have hfirst {n : Nat} (hn : n = b.toNat) : UInt8.ofNat n = b := hn ▸ UInt8.ofNat_toNat
  have hne {n : UInt8} (hb : b ≠ n) : b.toNat ≠ n.toNat := fun he => hb (UInt8.toNat_inj.1 he)
  rw [encodeChar_ofNat (hs.isValidChar hv), if_neg (by omega)]
  rw [lead?_eq] at h
  split at h
  · cases h
    simp only [Nat.reducePow] at hcode
    rw [if_pos (by omega), hfirst (by omega)]
    rfl
  · split at h
    · cases h
      simp only [Nat.reducePow] at hcode
      have hlong : 0x800 ≤ v := by
        by_cases h₀ : b = 0xe0
        · subst h₀
          exact hv.1
        · have : b.toNat ≠ 0xe0 := hne h₀
          omega
      rw [if_neg (by omega), if_pos (by omega), hfirst (by omega)]
      rfl
    · split at h
      · cases h
        simp only [Nat.reducePow] at hcode
        have hlong : 0x10000 ≤ v := by
          by_cases h₀ : b = 0xf0
          · subst h₀
            exact hv.1
          · have : b.toNat ≠ 0xf0 := hne h₀
            omega
        rw [if_neg (by omega), if_neg (by omega), hfirst (by omega)]
        rfl
      · cases h

/-- The byte of a digit. -/
theorem ofNat_digit (hs : s.Sound) (hb : s.low.toNat ≤ b.toNat ∧ b.toNat ≤ s.high.toNat) :
    UInt8.ofNat ((s.code * 64 + (b.toNat - 0x80)) % 64 + 0x80) = b := by
  obtain ⟨-, hlow, hhigh, -, -⟩ := hs
  have hn : (s.code * 64 + (b.toNat - 0x80)) % 64 + 0x80 = b.toNat := by omega
  rw [hn, UInt8.ofNat_toNat]

theorem spells_more (hs : s.Sound) (h : s.Spells) (hb : s.low.toNat ≤ b.toNat ∧ b.toNat ≤ s.high.toNat)
    (hm : 1 < s.missing) : (s.more b).Spells := by
  intro v hv
  obtain ⟨hleast, hbound⟩ := hs.bounds_more hb hm
  have hcode := (hs.more hb hm).div_eq_code hv
  obtain ⟨k, hk⟩ : ∃ k, s.missing = k + 1 := ⟨s.missing - 1, by omega⟩
  have hmissing : (s.more b).missing = k := by
    rw [Begun.more, hk]
    rfl
  rw [hmissing] at hcode ⊢
  rw [h v (by omega), hk, continuation, hcode]
  rw [Begun.more]
  dsimp only
  rw [ofNat_digit hs hb, List.append_assoc, List.singleton_append]

/-- The last byte completes the bytes of the character. -/
theorem encodeChar_last (hs : s.Sound) (h : s.Spells) (hb : s.low.toNat ≤ b.toNat ∧ b.toNat ≤ s.high.toNat)
    (hm : s.missing ≤ 1) :
    String.utf8EncodeChar (Char.ofNat (s.code * 64 + (b.toNat - 0x80))) = s.bytes ++ [b] := by
  have hone : s.missing = 1 := by
    have := hs.missing
    omega
  rw [h _ (hs.code_last hb hm), hone, continuation, Nat.pow_zero, Nat.div_one, ofNat_digit hs hb]
  rfl

/-! ## Pieces in bytes -/

/-- The bytes of a piece. -/
def Piece.bytes : Piece → List UInt8
  | .char c => String.utf8EncodeChar c
  | .wrong bytes _ => bytes

/-- The bytes of what is begun. -/
def held (state : Option Begun) : List UInt8 := state.elim [] (·.bytes)

/-- A reader is between characters or holds the bytes that write what it has begun. -/
def Faithful (state : Option Begun) : Prop := ∀ s, state = some s → s.Sound ∧ s.Spells

theorem Faithful.none : Faithful none := nofun

theorem Faithful.some (hs : s.Sound) (h : s.Spells) : Faithful (some s) := fun _ he => Option.some.inj he ▸ ⟨hs, h⟩

theorem bytes_of_lead? (h : lead? b = some s) : s.bytes = [b] := by
  rw [lead?_eq] at h
  split at h
  · cases h
    rfl
  · split at h
    · cases h
      rfl
    · split at h <;> cases h
      rfl

theorem encodeChar_ascii (hb : b.toNat < 0x80) : String.utf8EncodeChar (Char.ofUInt8 b) = [b] := by
  have hchar : Char.ofUInt8 b = Char.ofNat b.toNat := (Char.ofNat_toNat (Char.ofUInt8 b)).symm
  have hvalid : b.toNat.isValidChar := by
    unfold Nat.isValidChar
    omega
  rw [hchar, encodeChar_ofNat hvalid, if_pos (by omega), UInt8.ofNat_toNat]

theorem bytes_first : (first b).1.flatMap Piece.bytes ++ held (first b).2 = [b] ∧ Faithful (first b).2 := by
  by_cases hb : b < 0x80
  · rw [first, if_pos hb]
    exact ⟨by simp [Piece.bytes, held, encodeChar_ascii (UInt8.lt_iff_toNat_lt.1 hb)], .none⟩
  · rw [first, if_neg hb]
    cases hl : lead? b with
    | none => exact ⟨rfl, .none⟩
    | some s => exact ⟨bytes_of_lead? hl, .some (sound_of_lead? hl) (spells_of_lead? hl)⟩

/-- A byte goes into the pieces that it completes or into what is begun after it. -/
theorem bytes_next (h : Faithful state) :
    (next state b).1.flatMap Piece.bytes ++ held (next state b).2 = held state ++ [b] ∧ Faithful (next state b).2 := by
  cases state with
  | none => exact bytes_first
  | some s =>
    obtain ⟨hs, hspells⟩ := h s rfl
    by_cases ha : s.low.toNat ≤ b.toNat ∧ b.toNat ≤ s.high.toNat
    · by_cases hm : s.missing ≤ 1
      · rw [next_last ha hm]
        exact ⟨by simp [Piece.bytes, held, encodeChar_last hs hspells ha hm], .none⟩
      · rw [next_more ha (Nat.not_le.1 hm)]
        exact ⟨rfl, .some (hs.more ha (Nat.not_le.1 hm)) (spells_more hs hspells ha (Nat.not_le.1 hm))⟩
    · rw [next_refused ha]
      refine ⟨?_, bytes_first.2⟩
      rw [List.flatMap_cons, List.append_assoc, bytes_first.1]
      rfl

theorem bytes_piecesFrom (h : Faithful state) : (piecesFrom state l).flatMap Piece.bytes = held state ++ l := by
  induction l generalizing state with
  | nil => cases state <;> simp [piecesFrom, held, Piece.bytes]
  | cons b l ih =>
    obtain ⟨hbytes, hnext⟩ := bytes_next (b := b) h
    have hcons : piecesFrom state (b :: l) = (next state b).1 ++ piecesFrom (next state b).2 l := by
      cases state <;> rfl
    rw [hcons, List.flatMap_append, ih hnext, ← List.append_assoc, hbytes, List.append_assoc, List.singleton_append]

/-- No byte is lost or moved. -/
theorem bytes_pieces : (pieces l).flatMap Piece.bytes = l := bytes_piecesFrom .none

/-! ## Well-formed bytes -/

theorem encode_append {u : List Char} : encode (t ++ u) = encode t ++ encode u := List.flatMap_append

theorem bytes_characters : (t.map Piece.char).flatMap Piece.bytes = encode t := List.flatMap_map ..

/-- The strict decoder accepts the bytes of a text and no others. -/
theorem decode_eq_ok_iff : decode l = .ok t ↔ encode t = l := by
  constructor
  · intro h
    have hpieces : pieces l = t.map .char := eq_of_charactersFrom h
    rw [← bytes_characters, ← hpieces, bytes_pieces]
  · intro h
    rw [← h, decode_encode]

theorem wellFormed_iff : WellFormed l ↔ ∃ t, decode l = .ok t := exists_congr fun _ => decode_eq_ok_iff.symm

theorem pieces_append : pieces (encode t ++ l) = t.map .char ++ pieces l := by
  induction t with
  | nil => rfl
  | cons c t ih =>
    rw [encode, List.flatMap_cons, List.append_assoc, pieces, piecesFrom_encodeChar]
    exact congrArg (.char c :: ·) ih

/-- The strict decoder fails at the first wrong piece. -/
theorem exists_of_charactersFrom_error (h : charactersFrom n ps = .error e) :
    ∃ t rest, ps = t.map .char ++ .wrong e.bytes e.reason :: rest ∧ e.start = n + (encode t).length := by
  induction ps generalizing n with
  | nil => cases h
  | cons piece ps ih =>
    cases piece with
    | wrong bytes reason =>
      cases h
      exact ⟨[], ps, rfl, rfl⟩
    | char c =>
      rw [charactersFrom] at h
      cases hrest : charactersFrom (n + c.utf8Size) ps with
      | ok u =>
        rw [hrest] at h
        cases h
      | error e' =>
        rw [hrest] at h
        cases h
        obtain ⟨t, rest, hps, hstart⟩ := ih hrest
        refine ⟨c :: t, rest, by rw [hps, List.map_cons, List.cons_append], ?_⟩
        rw [hstart, encode, encode, List.flatMap_cons, List.length_append, String.length_utf8EncodeChar, Nat.add_assoc]

/-- A text of which the bytes are the first ones is a part of the text before the first
wrong piece. -/
theorem isPrefix_of_pieces {u : List Char} {bytes : List UInt8} {reason : Reason} {rest rest' : List Piece}
    (h : t.map Piece.char ++ .wrong bytes reason :: rest = u.map Piece.char ++ rest') : u <+: t := by
  induction u generalizing t with
  | nil => exact List.nil_prefix
  | cons c u ih =>
    cases t with
    | nil => cases h
    | cons d t =>
      obtain ⟨hc, htail⟩ := List.cons.inj h
      cases hc
      exact List.cons_prefix_cons.2 ⟨rfl, ih htail⟩

/-- Where the strict decoder fails, it has read the longest stretch of the first bytes
that are a text; the lenient decoder gives that text and puts in a replacement
character behind it. -/
theorem decode_eq_error (h : decode l = .error e) :
    IsGreatest {n | n ≤ l.length ∧ WellFormed (l.take n)} e.start ∧
      ∃ t rest, encode t = l.take e.start ∧ decodeReplacing l = t ++ replacement :: rest := by
  obtain ⟨t, rest, hpieces, hstart⟩ := exists_of_charactersFrom_error h
  change pieces l = _ at hpieces
  rw [Nat.zero_add] at hstart
  have hl : l = encode t ++ (e.bytes ++ rest.flatMap Piece.bytes) := by
    rw [← bytes_pieces (l := l), hpieces, List.flatMap_append, bytes_characters]
    rfl
  have htake : encode t = l.take e.start := by
    rw [hstart, hl, List.take_left]
  refine ⟨⟨⟨?_, t, htake⟩, ?_⟩, t, rest.map Piece.shown, htake, ?_⟩
  · rw [hstart, hl, List.length_append]
    exact Nat.le_add_right _ _
  · rintro n ⟨hn, u, hu⟩
    -- the pieces of a longer text would go on with characters past the first wrong one
    have hlonger : l = encode u ++ l.drop n := by rw [hu, List.take_append_drop]
    rw [hlonger, pieces_append] at hpieces
    obtain ⟨v, rfl⟩ := isPrefix_of_pieces hpieces.symm
    have hlength : n = (encode u).length := by rw [hu, List.length_take_of_le hn]
    rw [hstart, hlength, encode_append, List.length_append]
    exact Nat.le_add_right _ _
  · change (pieces l).map Piece.shown = _
    rw [hpieces, List.map_append, List.map_map]
    exact congrArg (· ++ _) (List.map_id t)

end TapeMachine.Text.Utf8
