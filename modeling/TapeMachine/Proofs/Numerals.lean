/-
The texts that are integers: a grammar of their own (`Literal`) that the reader
of numerals accepts exactly (`parse?_eq_some_iff`). What a text spells is its
sign and its digits (`Spells`), and no more of it counts: neither the blanks
around it nor the underscores or the scripts of the digits (`parse?_of_spells`).
-/
import Mathlib.Data.List.TakeWhile
import Mathlib.Data.Nat.Digits.Defs
import TapeMachine.Text.Numeral

namespace TapeMachine.Text

variable {p : Char → Bool} {s left right : List Char}

/-! ## Trimmed texts -/

theorem exists_of_trim : ∃ left right, s = left ++ trim p s ++ right ∧ left.all p ∧ right.all p := by
  refine ⟨s.takeWhile p, ((s.dropWhile p).reverse.takeWhile p).reverse, ?_, List.all_takeWhile, ?_⟩
  · rw [trim, dropEndWhile, List.append_assoc, ← List.reverse_append, List.takeWhile_append_dropWhile,
      List.reverse_reverse, List.takeWhile_append_dropWhile]
  · rw [List.all_reverse]
    exact List.all_takeWhile

theorem trim_append {c d : Char} (hl : left.all p) (hr : right.all p) (hhead : s.head? = some c) (hc : p c = false)
    (hlast : s.getLast? = some d) (hd : p d = false) : trim p (left ++ s ++ right) = s := by
  rw [List.all_eq_true] at hl hr
  have hstart : (s ++ right).dropWhile p = s ++ right := by
    obtain ⟨rest, rfl⟩ := List.head?_eq_some_iff.1 hhead
    exact List.dropWhile_cons_of_neg (by simp [hc])
  have hend : s.reverse.dropWhile p = s.reverse := by
    obtain ⟨front, rfl⟩ := List.getLast?_eq_some_iff.1 hlast
    rw [List.reverse_append]
    exact List.dropWhile_cons_of_neg (by simp [hd])
  rw [trim, List.append_assoc, List.dropWhile_append_of_pos hl, hstart, dropEndWhile, List.reverse_append,
    List.dropWhile_append_of_pos (fun c hc => hr c (List.mem_reverse.1 hc)), hend, List.reverse_reverse]

theorem trim_eq_nil_iff : trim p s = [] ↔ s.all p := by
  constructor
  · intro h
    obtain ⟨left, right, hs, hl, hr⟩ := exists_of_trim (p := p) (s := s)
    rw [hs, h, List.append_nil, List.all_append, hl, hr, Bool.and_self]
  · intro h
    rw [trim, List.dropWhile_eq_nil_iff.2 (List.all_eq_true.1 h)]
    rfl

namespace Numeral

variable {c : Char} {d k : Nat} {t body sign : List Char} {ds : List Nat} {n : Int}

/-! ## Digits -/

/-- The digits of a script follow its zero, before the zero of the next. -/
theorem pairwise_zeros : zeros.Pairwise (· + 10 ≤ ·) := by decide

theorem digit?_eq_some_iff : digit? c = some d ↔ d < 10 ∧ ∃ z ∈ zeros, c.toNat = z + d := by
  constructor
  · intro h
    obtain ⟨z, hz, hd⟩ := List.exists_of_findSome?_eq_some h
    split at hd
    · next hc =>
      rw [Bool.and_eq_true, decide_eq_true_iff, decide_eq_true_iff] at hc
      have := Option.some.inj hd
      exact ⟨by omega, z, hz, by omega⟩
    · cases hd
  · rintro ⟨hd, z, hz, hc⟩
    obtain ⟨before, after, hzeros⟩ := List.append_of_mem hz
    refine List.findSome?_eq_some_iff.2 ⟨before, z, after, hzeros, ?_, fun y hy => ?_⟩
    · simp [hc, hd]
    · -- the digits of the scripts before end before this one begins
      have hpairs := pairwise_zeros
      rw [hzeros, List.pairwise_append] at hpairs
      have hbefore : y + 10 ≤ z := hpairs.2.2 y hy z List.mem_cons_self
      simp
      omega

/-- No digit is blank. -/
theorem isBlank_of_digit? (h : digit? c = some d) : isBlank c = false := by
  have hzeros : ∀ z ∈ zeros, ∀ d < 10, isBlank (Char.ofNat (z + d)) = false := by decide +kernel
  obtain ⟨hd, z, hz, hc⟩ := digit?_eq_some_iff.1 h
  have hblank := hzeros z hz d hd
  rw [← hc, Char.ofNat_toNat] at hblank
  exact hblank

/-- Decimal digits with single underscores between them at most, and their values. -/
inductive Digits : List Char → List Nat → Prop
  | last {c : Char} {d : Nat} : digit? c = some d → Digits [c] [d]
  | cons {c : Char} {d : Nat} {s : List Char} {ds : List Nat} :
    digit? c = some d → Digits s ds → Digits (c :: s) (d :: ds)
  | gap {c : Char} {d : Nat} {s : List Char} {ds : List Nat} :
    digit? c = some d → Digits s ds → Digits (c :: '_' :: s) (d :: ds)

theorem Digits.exists_head (h : Digits s ds) : ∃ c d rest, s = c :: rest ∧ digit? c = some d := by
  cases h with
  | last h | cons h | gap h => exact ⟨_, _, _, rfl, h⟩

theorem Digits.exists_last (h : Digits s ds) : ∃ c d front, s = front ++ [c] ∧ digit? c = some d := by
  induction h with
  | last h => exact ⟨_, _, [], rfl, h⟩
  | cons _ _ ih =>
    obtain ⟨c, d, front, rfl, h⟩ := ih
    exact ⟨c, d, _ :: front, rfl, h⟩
  | gap _ _ ih =>
    obtain ⟨c, d, front, rfl, h⟩ := ih
    exact ⟨c, d, _ :: '_' :: front, rfl, h⟩

theorem digits?_eq_some_iff : digits? s = some ds ↔ Digits s ds := by
  constructor
  · intro h
    induction s using digits?.induct generalizing ds with
    | case1 => cases h
    | case2 c =>
      obtain ⟨d, hd, rfl⟩ := Option.map_eq_some_iff.1 h
      exact .last hd
    | case3 c rest ih =>
      rw [digits?] at h
      obtain ⟨d, hd, h⟩ := Option.bind_eq_some_iff.1 h
      obtain ⟨ds, hds, h⟩ := Option.bind_eq_some_iff.1 h
      cases h
      exact .gap hd (ih hds)
    | case4 c rest _ _ ih =>
      rw [digits?] at h
      · obtain ⟨d, hd, h⟩ := Option.bind_eq_some_iff.1 h
        obtain ⟨ds, hds, h⟩ := Option.bind_eq_some_iff.1 h
        cases h
        exact .cons hd (ih hds)
      all_goals assumption
  · intro h
    induction h with
    | last h => rw [digits?, h, Option.map_some]
    | @cons c d s ds h hs ih =>
      -- what follows begins with a digit, so it is not read as the end or as a gap
      obtain ⟨c', d', rest, rfl, hc'⟩ := hs.exists_head
      rw [digits?, h, ih]
      · rfl
      · nofun
      · rintro rest' he
        cases he
        cases hc'
    | gap h _ ih =>
      rw [digits?, h, ih]
      rfl

theorem Digits.not_blank (h : Digits s ds) : ∀ c ∈ s, isBlank c = false := by
  induction h with
  | last h => exact List.forall_mem_singleton.2 (isBlank_of_digit? h)
  | cons h _ ih => exact List.forall_mem_cons.2 ⟨isBlank_of_digit? h, ih⟩
  | gap h _ ih => exact List.forall_mem_cons.2 ⟨isBlank_of_digit? h, List.forall_mem_cons.2 ⟨rfl, ih⟩⟩

/-! ## Literals -/

/-- The signs. -/
def signs : List (List Char) := [[], ['+'], ['-']]

theorem mem_signs : sign ∈ signs ↔ sign = [] ∨ sign = ['+'] ∨ sign = ['-'] := by
  simp only [signs, List.mem_cons, List.not_mem_nil, or_false]

/-- The number with the sign. -/
def signed (sign : List Char) (n : Nat) : Int := if sign = ['-'] then -n else n

/-- A text of digits behind a sign, with blanks around them. -/
inductive Spells : List Char → List Char → List Nat → Prop
  | intro {left sign body right : List Char} {ds : List Nat} :
    left.all isMargin → right.all isMargin → sign ∈ signs → Digits body ds →
      Spells (left ++ (sign ++ body) ++ right) sign ds

/-- The integers in text: of what is spelled, the number to the base 10, if the digits are
not too many. -/
def Literal (s : List Char) (n : Int) : Prop :=
  ∃ sign ds, Spells s sign ds ∧ ds.length ≤ maxDigits ∧ n = signed sign (Nat.ofDigits 10 ds.reverse)

theorem value_eq_ofDigits : value ds = Nat.ofDigits 10 ds.reverse := by
  rw [value, Nat.ofDigits_eq_foldr, List.foldr_reverse]
  congr
  funext n d
  rw [Nat.cast_id, Nat.add_comm]

theorem unsigned?_of_digits (h : Digits body ds) :
    unsigned? body = if ds.length ≤ maxDigits then some (Nat.ofDigits 10 ds.reverse) else none := by
  rw [unsigned?, digits?_eq_some_iff.2 h, ← value_eq_ofDigits]
  rfl

theorem exists_digits_of_unsigned? {v : Nat} (h : unsigned? body = some v) :
    ∃ ds, Digits body ds ∧ ds.length ≤ maxDigits ∧ v = Nat.ofDigits 10 ds.reverse := by
  obtain ⟨ds, hds, -⟩ := Option.bind_eq_some_iff.1 h
  have hdigits := digits?_eq_some_iff.1 hds
  rw [unsigned?_of_digits hdigits] at h
  obtain ⟨hlength, hv⟩ := Option.ite_none_right_eq_some.1 h
  exact ⟨ds, hdigits, hlength, (Option.some.inj hv).symm⟩

/-- A text cut behind its sign. -/
def splitSign : List Char → List Char × List Char
  | '+' :: rest => (['+'], rest)
  | '-' :: rest => (['-'], rest)
  | rest => ([], rest)

theorem splitSign_spec : (splitSign t).1 ∈ signs ∧ (splitSign t).1 ++ (splitSign t).2 = t := by
  unfold splitSign
  split <;> exact ⟨by simp [signs], rfl⟩

theorem splitSign_append (hsign : sign ∈ signs) (hbody : Digits body ds) : splitSign (sign ++ body) = (sign, body) := by
  obtain ⟨c, d, rest, rfl, hc⟩ := hbody.exists_head
  rcases mem_signs.1 hsign with rfl | rfl | rfl
  · rw [List.nil_append]
    unfold splitSign
    split
    · next he =>
      cases he
      cases hc
    · next he =>
      cases he
      cases hc
    · rfl
  · rfl
  · rfl

theorem parse?_eq : parse? s =
    (unsigned? (splitSign (trim isMargin s)).2).map (signed (splitSign (trim isMargin s)).1) := by
  rw [parse?]
  split
  · next rest htrim =>
    rw [htrim]
    rfl
  · next rest htrim =>
    rw [htrim, splitSign]
    cases unsigned? rest <;> rfl
  · next hplus hminus =>
    rw [splitSign]
    · rfl
    · exact hplus
    · exact hminus

theorem trim_spelled (hl : left.all isMargin) (hr : right.all isMargin) (hsign : sign ∈ signs)
    (hbody : Digits body ds) : trim isMargin (left ++ (sign ++ body) ++ right) = sign ++ body := by
  obtain ⟨c, d, rest, hrest, hc⟩ := hbody.exists_head
  obtain ⟨c', d', front, hfront, hc'⟩ := hbody.exists_last
  have hmargin {c : Char} {d : Nat} (h : digit? c = some d) : isMargin c = false := by
    rw [isMargin, isBlank_of_digit? h, Bool.false_and]
  have hlast : (sign ++ body).getLast? = some c' := by rw [hfront, ← List.append_assoc, List.getLast?_concat]
  rcases mem_signs.1 hsign with rfl | rfl | rfl
  · exact trim_append hl hr (by rw [hrest]; rfl) (hmargin hc) hlast (hmargin hc')
  · exact trim_append hl hr rfl rfl hlast (hmargin hc')
  · exact trim_append hl hr rfl rfl hlast (hmargin hc')

/-- Of a text only the sign and the digits count. -/
theorem parse?_of_spells (h : Spells s sign ds) : parse? s =
    if ds.length ≤ maxDigits then some (signed sign (Nat.ofDigits 10 ds.reverse)) else none := by
  cases h with
  | intro hl hr hsign hbody =>
    rw [parse?_eq, trim_spelled hl hr hsign hbody, splitSign_append hsign hbody, unsigned?_of_digits hbody]
    split <;> rfl

theorem literal_of_parse? (h : parse? s = some n) : Literal s n := by
  obtain ⟨left, right, hs, hl, hr⟩ := exists_of_trim (p := isMargin) (s := s)
  obtain ⟨hsign, hsplit⟩ := splitSign_spec (t := trim isMargin s)
  rw [parse?_eq] at h
  obtain ⟨v, hv, rfl⟩ := Option.map_eq_some_iff.1 h
  obtain ⟨ds, hds, hlength, rfl⟩ := exists_digits_of_unsigned? hv
  rw [← hsplit] at hs
  refine ⟨_, ds, ?_, hlength, rfl⟩
  have hspells := Spells.intro hl hr hsign hds
  rwa [← hs] at hspells

theorem parse?_eq_some_iff : parse? s = some n ↔ Literal s n := by
  refine ⟨literal_of_parse?, ?_⟩
  rintro ⟨sign, ds, hspells, hlength, rfl⟩
  rw [parse?_of_spells hspells, if_pos hlength]

/-! ## Other spellings -/

/-- Zeros before the first digit add nothing. -/
theorem ofDigits_leadingZeros : Nat.ofDigits 10 (List.replicate k 0 ++ ds).reverse = Nat.ofDigits 10 ds.reverse := by
  rw [List.reverse_append, List.reverse_replicate, Nat.ofDigits_append_replicate_zero]

/-- Two texts with the same sign and the same digits are the same number, and zeros before
them make no difference, as long as there is room. -/
theorem parse?_respelled (hs : Spells s sign ds) (ht : Spells t sign (List.replicate k 0 ++ ds))
    (hk : k + ds.length ≤ maxDigits) : parse? t = parse? s := by
  have hlength : (List.replicate k 0 ++ ds).length ≤ maxDigits := by
    rwa [List.length_append, List.length_replicate]
  rw [parse?_of_spells hs, parse?_of_spells ht, if_pos hlength, if_pos (by omega), ofDigits_leadingZeros]

theorem digit?_of_isDigit (h : c.isDigit = true) : digit? c = some (c.toNat - '0'.toNat) := by
  have hbounds : 0x30 ≤ c.toNat ∧ c.toNat ≤ 0x39 := Char.isDigit_iff_toNat.1 h
  have hzero : '0'.toNat = 0x30 := rfl
  exact digit?_eq_some_iff.2 ⟨by omega, 0x30, by decide, by omega⟩

theorem digits_of_isDigit (hne : s ≠ []) (h : ∀ c ∈ s, c.isDigit = true) :
    Digits s (s.map (·.toNat - '0'.toNat)) := by
  induction s with
  | nil => exact absurd rfl hne
  | cons c s ih =>
    obtain ⟨hc, hs⟩ := List.forall_mem_cons.1 h
    cases s with
    | nil => exact .last (digit?_of_isDigit hc)
    | cons c' s => exact .cons (digit?_of_isDigit hc) (ih (List.cons_ne_nil _ _) hs)

theorem digits_toDigits {n : Nat} : Digits (Nat.toDigits 10 n) ((Nat.toDigits 10 n).map (·.toNat - '0'.toNat)) :=
  digits_of_isDigit (List.ne_nil_of_length_pos Nat.length_toDigits_pos)
    fun _ hc => Nat.isDigit_of_mem_toDigits (by decide) (by decide) hc

theorem value_toDigits {n : Nat} : value ((Nat.toDigits 10 n).map (·.toNat - '0'.toNat)) = n := by
  rw [value, List.foldl_map, ← Nat.ofDigitChars_eq_foldl]
  exact Nat.ofDigitChars_toDigits (by decide) (by decide)

/-- The decimal text of an integer is read as that integer, if it has no more digits than
are allowed. -/
theorem parse?_repr :
    parse? n.repr.toList = if (Nat.toDigits 10 n.natAbs).length ≤ maxDigits then some n else none := by
  have hnil : ([] : List Char).all isMargin := rfl
  obtain ⟨sign, hspells, hsigned⟩ : ∃ sign, Spells n.repr.toList sign
      ((Nat.toDigits 10 n.natAbs).map (·.toNat - '0'.toNat)) ∧ signed sign n.natAbs = n := by
    cases n with
    | ofNat m =>
      refine ⟨[], ?_, rfl⟩
      have h := Spells.intro hnil hnil (by decide : [] ∈ signs) (digits_toDigits (n := m))
      simpa [Int.repr] using h
    | negSucc m =>
      refine ⟨['-'], ?_, rfl⟩
      have h := Spells.intro hnil hnil (by decide : ['-'] ∈ signs) (digits_toDigits (n := m + 1))
      simpa [Int.repr] using h
  rw [parse?_of_spells hspells, ← value_eq_ofDigits, value_toDigits, hsigned, List.length_map]

/-- What is spelled has no separator, not even among the blanks around it. -/
theorem Spells.not_separator (h : Spells s sign ds) : ∀ c ∈ s, isSeparator c = false := by
  have hmargin {u : List Char} (hu : u.all isMargin) : ∀ c ∈ u, isSeparator c = false := by
    intro c hc
    have hc := List.all_eq_true.1 hu c hc
    rw [isMargin, Bool.and_eq_true, Bool.not_eq_true'] at hc
    exact hc.2
  have hblank {c : Char} (hc : isBlank c = false) : isSeparator c = false := by
    cases hsep : isSeparator c with
    | false => rfl
    | true =>
      rw [isBlank, hsep] at hc
      simp at hc
  cases h with
  | intro hl hr hsign hbody =>
    have hsigned : ∀ sign ∈ signs, ∀ c ∈ sign, isSeparator c = false := by simp [signs, isSeparator]
    simp only [List.forall_mem_append]
    exact ⟨⟨hmargin hl, hsigned _ hsign, fun c hc => hblank (hbody.not_blank c hc)⟩, hmargin hr⟩

theorem Literal.not_separator (h : Literal s n) : ∀ c ∈ s, isSeparator c = false := by
  obtain ⟨sign, ds, hspells, -⟩ := h
  exact hspells.not_separator

theorem Literal.not_blank (h : Literal s n) : ¬ s.all isBlank := by
  obtain ⟨sign, ds, hspells, -⟩ := h
  cases hspells with
  | intro _ _ _ hbody =>
    obtain ⟨c, d, rest, rfl, hc⟩ := hbody.exists_head
    intro hall
    have hblank : isBlank c = true := List.all_eq_true.1 hall c (by simp)
    rw [isBlank_of_digit? hc] at hblank
    cases hblank

theorem Literal.unique {m : Int} (h : Literal s n) (h' : Literal s m) : n = m :=
  Option.some.inj ((parse?_eq_some_iff.2 h).symm.trans (parse?_eq_some_iff.2 h'))

end Numeral
end TapeMachine.Text
