/-
Plain env files: lines `KEY=value` of characters that have no meaning of their
own. Such a file is read back line by line (`read_plainText`): nothing in it
is a comment, a quote or a reference. So what it gives a name is what the last
line for the name says (`given_plainFile`), and it is loaded without an error
and without a warning (`load_plainFile`).
-/
import TapeMachine.Proofs.Except
import TapeMachine.Proofs.FilePrograms
import TapeMachine.Proofs.Loading

namespace TapeMachine.EnvFile

open Text

/-- A character that stands for itself wherever it is in an env file. -/
def isPlain (c : Char) : Bool := !(isBlank c || ['=', '#', '\'', '"', '$', '\x00', '\ufeff'].contains c)

/-- A line `KEY=value` of plain characters. -/
structure PlainLine where
  key : List Char
  value : List Char
  key_ne_nil : key ≠ []
  plain_key : ∀ c ∈ key, isPlain c = true
  plain_value : ∀ c ∈ value, isPlain c = true

namespace PlainLine

def text (l : PlainLine) : List Char := l.key ++ '=' :: (l.value ++ ['\n'])

/-- What the line says. -/
def statement (l : PlainLine) : String × Option String := (String.ofList l.key, some (String.ofList l.value))

end PlainLine

/-- The text of a file of plain lines. -/
def plainText (lines : List PlainLine) : List Char := lines.flatMap PlainLine.text

/-- The value on the last line for a name. -/
def lastFor (name : String) (lines : List PlainLine) : Option String :=
  (lines.reverse.find? (String.ofList ·.key = name)).map (String.ofList ·.value)

variable {fs : Files} {path : Option String} {env : Environment} {bs : Bindings} {name v : String} {c : Char}
  {l : PlainLine} {lines : List PlainLine} {s rest : List Char} {fuel n : Nat}

/-! ## Plain characters -/

theorem not_blank_of_isPlain (h : isPlain c = true) : isBlank c = false := by
  simp only [isPlain, Bool.not_eq_true', Bool.or_eq_false_iff] at h
  exact h.1

theorem ne_of_isPlain (h : isPlain c = true) :
    c ≠ '=' ∧ c ≠ '#' ∧ c ≠ '\'' ∧ c ≠ '"' ∧ c ≠ '$' ∧ c ≠ '\x00' ∧ c ≠ '\ufeff' := by
  simp only [isPlain, Bool.not_eq_true', Bool.or_eq_false_iff] at h
  simpa using h.2

theorem not_lineEnd_of_isPlain (h : isPlain c = true) : isLineEnd c = false := by
  have hblank := not_blank_of_isPlain h
  simp only [isLineEnd, Bool.or_eq_false_iff, decide_eq_false_iff_not]
  constructor
  · rintro rfl
    cases hblank
  · rintro rfl
    cases hblank

theorem not_gap_of_isPlain (h : isPlain c = true) : isGap c = false := by
  rw [isGap, not_blank_of_isPlain h]
  rfl

theorem isKeyChar_of_isPlain (h : isPlain c = true) : isKeyChar c = true := by
  obtain ⟨hequals, hhash, -⟩ := ne_of_isPlain h
  simp [isKeyChar, hequals, hhash, not_blank_of_isPlain h]

/-! ## One line -/

/-- Only an `export` before a gap is skipped, and a key ends before an equals
sign. -/
theorem skipExport_of_plain (h : ∀ c ∈ s, isPlain c = true) : skipExport (s ++ '=' :: rest) = s ++ '=' :: rest := by
  unfold skipExport
  split
  · next c after heq =>
    have hsplit : s ++ '=' :: rest = "export".toList ++ c :: after := heq
    have hc : isGap c = false := by
      rcases List.append_eq_append_iff.1 hsplit with ⟨w, hw, hrest⟩ | ⟨w, hw, hrest⟩
      · cases w with
        | nil =>
          cases hrest
          rfl
        | cons d w =>
          cases hrest
          exact absurd (hw ▸ List.mem_append_right s List.mem_cons_self : '=' ∈ "export".toList) (by decide)
      · cases w with
        | nil =>
          cases hrest
          rfl
        | cons d w =>
          cases hrest
          exact not_gap_of_isPlain (h c (hw ▸ List.mem_append_right _ List.mem_cons_self))
    exact if_neg (by simp [hc])
  · rfl

theorem readKey_of_plain (hne : s ≠ []) (h : ∀ c ∈ s, isPlain c = true) :
    readKey (s ++ '=' :: rest) = .ok (some s, '=' :: rest) := by
  have htake : (s ++ '=' :: rest).takeWhile isKeyChar = s := by
    rw [List.takeWhile_append_of_pos fun c hc => isKeyChar_of_isPlain (h c hc), List.takeWhile_cons_of_neg (by decide),
      List.append_nil]
  have hdrop : (s ++ '=' :: rest).dropWhile isKeyChar = '=' :: rest := by
    rw [List.dropWhile_append_of_pos fun c hc => isKeyChar_of_isPlain (h c hc), List.dropWhile_cons_of_neg (by decide)]
  obtain ⟨c, s', rfl⟩ := List.exists_cons_of_ne_nil hne
  obtain ⟨-, hhash, hquote, -⟩ := ne_of_isPlain (h c List.mem_cons_self)
  unfold readKey
  split
  · next heq => exact absurd (List.cons.inj heq).1 hhash
  · next heq => exact absurd (List.cons.inj heq).1 hquote
  · rw [htake, hdrop]

theorem beforeComment_of_plain (h : ∀ c ∈ s, isPlain c = true) : beforeComment s = s := by
  induction s with
  | nil => rfl
  | cons c s ih =>
    obtain ⟨hc, hs⟩ := List.forall_mem_cons.1 h
    rw [beforeComment, not_blank_of_isPlain hc, ih hs]
    rfl

theorem dropEndWhile_of_plain (h : ∀ c ∈ s, isPlain c = true) : dropEndWhile isBlank s = s := by
  rw [dropEndWhile]
  cases hs : s.reverse with
  | nil => rw [List.reverse_eq_nil_iff.1 hs]; rfl
  | cons c s' =>
    have hc := not_blank_of_isPlain (h c (List.mem_reverse.1 (hs ▸ List.mem_cons_self)))
    rw [List.dropWhile_cons_of_neg (by simp [hc]), ← hs, List.reverse_reverse]

/-- A value, or the line end where it is empty, begins with no sign. -/
theorem plain_or_lineFeed (h : ∀ c ∈ s, isPlain c = true) {after : List Char} (heq : s ++ '\n' :: rest = c :: after) :
    isPlain c = true ∨ c = '\n' := by
  cases s with
  | nil =>
    cases heq
    exact .inr rfl
  | cons d s =>
    cases heq
    exact .inl (h c List.mem_cons_self)

theorem ne_of_plain_or_lineFeed (h : isPlain c = true ∨ c = '\n') : isGap c = false ∧ c ≠ '#' ∧ c ≠ '\'' ∧ c ≠ '"' := by
  rcases h with h | rfl
  · obtain ⟨-, hhash, hsingle, hdouble, -⟩ := ne_of_isPlain h
    exact ⟨not_gap_of_isPlain h, hhash, hsingle, hdouble⟩
  · decide

theorem readValue_of_plain (h : ∀ c ∈ s, isPlain c = true) :
    readValue (s ++ '\n' :: rest) = .ok (s, '\n' :: rest) := by
  have hend (c : Char) (hc : c ∈ s) : (!isLineEnd c) = true := by rw [not_lineEnd_of_isPlain (h c hc)]; rfl
  have htake : (s ++ '\n' :: rest).takeWhile (!isLineEnd ·) = s := by
    rw [List.takeWhile_append_of_pos hend, List.takeWhile_cons_of_neg (by decide), List.append_nil]
  have hdrop : (s ++ '\n' :: rest).dropWhile (!isLineEnd ·) = '\n' :: rest := by
    rw [List.dropWhile_append_of_pos hend, List.dropWhile_cons_of_neg (by decide)]
  unfold readValue
  split
  · next heq => exact absurd rfl (ne_of_plain_or_lineFeed (plain_or_lineFeed h heq)).2.2.1
  · next heq => exact absurd rfl (ne_of_plain_or_lineFeed (plain_or_lineFeed h heq)).2.2.2
  · rw [htake, hdrop, beforeComment_of_plain h, dropEndWhile_of_plain h]

theorem readAssignment_of_plain (h : ∀ c ∈ s, isPlain c = true) :
    readAssignment ('=' :: (s ++ '\n' :: rest)) = .ok (some s, '\n' :: rest) := by
  obtain ⟨c, after, heq⟩ := List.exists_cons_of_ne_nil (List.append_ne_nil_of_right_ne_nil s (List.cons_ne_nil '\n' rest))
  obtain ⟨hgap, hhash, -⟩ := ne_of_plain_or_lineFeed (plain_or_lineFeed h heq)
  have hskip : skipGaps (s ++ '\n' :: rest) = s ++ '\n' :: rest := by
    rw [heq, skipGaps, List.dropWhile_cons_of_neg (by simp [hgap])]
  unfold readAssignment
  split
  · next value hvalue =>
    obtain rfl : s ++ '\n' :: rest = value := (List.cons.inj hvalue).2
    rw [hskip]
    split
    · next hcomment =>
      rw [heq] at hcomment
      exact absurd (List.cons.inj hcomment).1 hhash
    · rw [readValue_of_plain h]
      rfl
  · next hne => exact absurd rfl (hne _)

theorem readEnd_lineFeed : readEnd ('\n' :: rest) = .ok ((), rest) := rfl

/-- A line is read back, whatever follows it. -/
theorem readStatement_line : readStatement (l.text ++ rest) = (.binding (String.ofList l.key) (String.ofList l.value), rest) := by
  have htext : l.text ++ rest = l.key ++ '=' :: (l.value ++ '\n' :: rest) := by simp [PlainLine.text]
  have hbinding : readBinding (l.text ++ rest) = .ok (.binding (String.ofList l.key) (String.ofList l.value), rest) := by
    rw [htext, readBinding, skipExport_of_plain l.plain_key]
    exact bind_eq_ok_iff.2 ⟨_, readKey_of_plain l.key_ne_nil l.plain_key,
      bind_eq_ok_iff.2 ⟨_, readAssignment_of_plain l.plain_value, bind_eq_ok_iff.2 ⟨_, readEnd_lineFeed, rfl⟩⟩⟩
  obtain ⟨c, key, hkey⟩ := List.exists_cons_of_ne_nil l.key_ne_nil
  have hc := not_blank_of_isPlain (l.plain_key c (hkey ▸ List.mem_cons_self))
  have hblank : (l.text ++ rest).dropWhile isBlank = l.text ++ rest := by
    rw [htext, hkey, List.cons_append, List.dropWhile_cons_of_neg (by simp [hc])]
  unfold readStatement
  rw [hblank]
  split
  · next hnil => exact absurd (htext.symm.trans hnil) (by simp)
  · rw [hbinding]

/-! ## Files -/

theorem plainText_cons : plainText (l :: lines) = l.text ++ plainText lines := List.flatMap_cons

theorem readFrom_plainText (h : lines.length ≤ fuel) :
    readFrom n (plainText lines) fuel = ⟨lines.map PlainLine.statement, []⟩ := by
  induction lines generalizing fuel n with
  | nil => cases fuel <;> rfl
  | cons l lines ih =>
    cases fuel with
    | zero => exact absurd h (Nat.not_succ_le_zero _)
    | succ fuel =>
      have hne : (l.text ++ plainText lines).isEmpty = false := by simp [PlainLine.text]
      rw [plainText_cons, readFrom, hne, readStatement_line]
      dsimp only [Bool.false_eq_true, if_false]
      rw [if_neg Bool.false_ne_true, ih (Nat.le_of_succ_le_succ h)]
      rfl

theorem length_le_plainText : lines.length ≤ (plainText lines).length := by
  induction lines with
  | nil => exact Nat.le_refl _
  | cons l lines ih =>
    rw [plainText_cons, List.length_append, List.length_cons, PlainLine.text, List.length_append, List.length_cons]
    omega

/-- All lines are read, and nothing else. -/
theorem read_plainText : read (plainText lines) = ⟨lines.map PlainLine.statement, []⟩ :=
  readFrom_plainText length_le_plainText

/-- The bytes of the file are decoded to its text: there is no carriage return
in it and no byte order mark before it. -/
theorem decode_plainText : decode (Utf8.encode (plainText lines)) = .ok (plainText lines) := by
  have hmem {c : Char} (hc : c ∈ plainText lines) : isPlain c = true ∨ c = '=' ∨ c = '\n' := by
    obtain ⟨l, -, hl⟩ := List.mem_flatMap.1 hc
    simp only [PlainLine.text, List.mem_append, List.mem_cons, List.not_mem_nil, or_false] at hl
    rcases hl with hkey | rfl | hvalue | rfl
    · exact .inl (l.plain_key c hkey)
    · exact .inr (.inl rfl)
    · exact .inl (l.plain_value c hvalue)
    · exact .inr (.inr rfl)
  have hreturn : '\r' ∉ plainText lines := by
    intro hr
    rcases hmem hr with h | h | h
    · exact absurd (not_blank_of_isPlain h) (by decide)
    · cases h
    · cases h
  have hmark : ∀ c ∈ plainText lines, c.toNat ≠ 0xfeff := by
    intro c hc hcode
    have hplain := hmem hc
    rw [← Char.ofNat_toNat c, hcode] at hplain
    exact absurd hplain (by decide)
  have htext : unifyNewlines (plainText lines) = plainText lines :=
    unifyNewlines_eq.trans (withLineFeeds_of_not_mem hreturn)
  rw [decode, Utf8.decode_encode]
  refine congrArg Except.ok ?_
  dsimp only
  rw [htext]
  split
  · next c rest heq => rw [if_neg (hmark c (heq ▸ List.mem_cons_self)), heq]
  · next hnil => rw [hnil]

/-! ## What a plain file gives -/

/-- There is no reference without a dollar sign. -/
theorem expandWith_of_plain {value : Reference → List Char} (h : ∀ c ∈ s, isPlain c = true) (hfuel : s.length ≤ fuel) :
    expandWith value s fuel = s := by
  induction s generalizing fuel with
  | nil => cases fuel <;> rfl
  | cons c s ih =>
    obtain ⟨hc, hs⟩ := List.forall_mem_cons.1 h
    cases fuel with
    | zero => exact absurd hfuel (Nat.not_succ_le_zero _)
    | succ fuel =>
      have hnone : reference? (c :: s) = none := by
        unfold reference?
        split
        · next heq => exact absurd (List.cons.inj heq).1 (ne_of_isPlain hc).2.2.2.2.1
        · rfl
      rw [expandWith, hnone]
      exact congrArg (c :: ·) (ih hs (Nat.le_of_succ_le_succ hfuel))

theorem expand_value : expand env bs (String.ofList l.value) = String.ofList l.value := by
  rw [expand, String.toList_ofList, expandWith_of_plain l.plain_value (Nat.le_succ _)]

theorem lastFor_concat :
    lastFor name (lines ++ [l]) = if String.ofList l.key = name then some (String.ofList l.value) else lastFor name lines := by
  rw [lastFor, List.reverse_append, List.reverse_singleton, List.singleton_append, List.find?_cons]
  by_cases hname : String.ofList l.key = name
  · simp [hname]
  · simp [hname, lastFor]

/-- A name is bound to the value on the last line for it. -/
theorem mem_bind_plain : (name, some v) ∈ bind env (lines.map PlainLine.statement) ↔ lastFor name lines = some v := by
  induction lines using List.reverseRecOn with
  | nil => simp [bind, lastFor]
  | append_singleton lines l ih =>
    rw [List.map_append, List.map_singleton, bind_concat, Bindings.mem_put, ih, lastFor_concat]
    dsimp only [PlainLine.statement, Option.map_some]
    rw [expand_value]
    by_cases hname : String.ofList l.key = name
    · simp [hname, eq_comm]
    · simp [hname, Ne.symm hname]

theorem not_hasNull_of_plain (h : ∀ c ∈ s, isPlain c = true) : hasNull (String.ofList s) = false := by
  rw [hasNull, String.toList_ofList, List.contains_eq_mem, decide_eq_false_iff_not]
  exact fun hnull => absurd (h _ hnull) (by decide)

/-- Every line can be set. -/
theorem setAll_plain (h : ∀ b ∈ bs, ∃ key value : List Char, b = (String.ofList key, some (String.ofList value)) ∧
    (∀ c ∈ key, isPlain c = true) ∧ ∀ c ∈ value, isPlain c = true) : (setAll env bs).2 = none := by
  induction bs generalizing env with
  | nil => rfl
  | cons b bs ih =>
    obtain ⟨⟨key, value, rfl, hkey, hvalue⟩, hbs⟩ := List.forall_mem_cons.1 h
    have hname : (String.ofList key).toList.contains '=' = false := by
      rw [String.toList_ofList, List.contains_eq_mem, decide_eq_false_iff_not]
      exact fun hequals => absurd (hkey _ hequals) (by decide)
    rw [setAll]
    split
    · exact ih hbs
    · rw [setVariable, not_hasNull_of_plain hkey, not_hasNull_of_plain hvalue, hname]
      exact ih hbs

/-- All that is bound stands on a line. -/
theorem exists_line_of_mem_bind {b : String × Option String} (h : b ∈ bind env (lines.map PlainLine.statement)) :
    ∃ l ∈ lines, b = l.statement := by
  obtain ⟨name, value⟩ := b
  obtain ⟨before, raw, after, heq, -, rfl⟩ := mem_bind_iff.1 h
  have hmem : (name, raw) ∈ lines.map PlainLine.statement := heq ▸ List.mem_append_right _ List.mem_cons_self
  obtain ⟨l, hl, hstatement⟩ := List.mem_map.1 hmem
  obtain ⟨rfl, rfl⟩ := Prod.mk.inj hstatement
  exact ⟨l, hl, congrArg (Prod.mk _) (congrArg some expand_value)⟩

/-- A plain file that is chosen gives a name the value on its last line for it. -/
theorem given_plainFile (hd : isDisabled env = false) (h : Chooses fs path (Utf8.encode (plainText lines))) :
    given fs path env name = lastFor name lines := by
  rw [given, hd, if_neg Bool.false_ne_true, h.chosen_eq]
  dsimp only
  rw [decode_plainText]
  dsimp only
  rw [read_plainText]
  ext v
  rw [value?_bind, mem_bind_plain]

/-- A plain file is loaded without an error or a warning. -/
theorem load_plainFile (h : Chooses fs path (Utf8.encode (plainText lines))) :
    (load fs path env).error = none ∧ (load fs path env).malformed = [] := by
  unfold load
  split
  · exact ⟨rfl, rfl⟩
  · rw [h.chosen_eq]
    dsimp only
    rw [loadBytes, decode_plainText]
    dsimp only
    rw [read_plainText]
    refine ⟨setAll_plain fun b hb => ?_, rfl⟩
    obtain ⟨l, -, rfl⟩ := exists_line_of_mem_bind hb
    exact ⟨l.key, l.value, rfl, l.plain_key, l.plain_value⟩

end TapeMachine.EnvFile
