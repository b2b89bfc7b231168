/-
Programs come from bytes in three ways: each byte as a character, the lines of
the input as UTF-8 with replacements, a file as strict UTF-8. None of them
loses, invents or moves a command (`decoding_keeps_commands`). Commands are
ASCII, and of ASCII the decoders keep everything; cutting the end of a line
off and unifying line ends only touches what is no command. A line feed is
ASCII too, so to cut the bytes into lines and decode each of them is to decode
all of them and cut the text (`cutAfter_decodeReplacing`).
-/
import TapeMachine.Proofs.Commands
import TapeMachine.Proofs.Lines
import TapeMachine.Proofs.Paths
import TapeMachine.Proofs.Utf8
import TapeMachine.Session

namespace TapeMachine

open Text

variable {b : UInt8} {l line rest : List UInt8} {lines : List (List UInt8)} {t : List Char} {keep : Char → Bool}

/-! ## Command bytes -/

/-- The bytes `> < + - . , [ ] #`. -/
def isMarkByte (b : UInt8) : Bool := [0x3e, 0x3c, 0x2b, 0x2d, 0x2e, 0x2c, 0x5b, 0x5d, 0x23].contains b

/-- The commands among bytes, in their order. -/
def marksOf (l : List UInt8) : List Char := (l.filter isMarkByte).map Char.ofUInt8

theorem ofUInt8_inj {c : UInt8} : Char.ofUInt8 b = Char.ofUInt8 c ↔ b = c := by
  refine ⟨fun h => UInt8.toNat_inj.1 ?_, congrArg _⟩
  exact congrArg Char.toNat h

theorem isMark_ofUInt8 : isMark (Char.ofUInt8 b) = isMarkByte b := by
  have hbyte (c : UInt8) : (Char.ofUInt8 b == Char.ofUInt8 c) = (b == c) := by
    rw [Bool.eq_iff_iff, beq_iff_eq, beq_iff_eq, ofUInt8_inj]
  simp only [isMark, isCommand, isMarkByte, List.contains_cons, List.contains_nil, Bool.or_false, ← hbyte]
  simp only [Bool.or_assoc]
  rfl

theorem ascii_of_isMark {c : Char} (h : isMark c = true) : c.toNat < 0x80 := by
  simp only [isMark, isCommand, Bool.or_eq_true, List.contains_iff_mem, List.mem_cons, List.not_mem_nil, or_false,
    beq_iff_eq] at h
  rcases h with (rfl | rfl | rfl | rfl | rfl | rfl | rfl | rfl) | rfl <;> decide

theorem isMark_narrows : (fun c => isMark c && decide (c.toNat < 0x80)) = isMark := by
  funext c
  cases h : isMark c with
  | false => rfl
  | true => exact decide_eq_true (ascii_of_isMark h)

/-! ## Decoders -/

theorem marks_latin1 : (Latin1.decode l).filter isMark = marksOf l := by
  rw [Latin1.decode, List.filter_map, marksOf]
  exact congrArg (List.map _) (List.filter_congr fun b _ => isMark_ofUInt8)

theorem marks_decodeReplacing : (Utf8.decodeReplacing l).filter isMark = marksOf l := by
  have hascii : (Utf8.decodeReplacing l).filter (·.toNat < 0x80) = (Latin1.decode l).filter (·.toNat < 0x80) := by
    rw [Utf8.filter_decodeReplacing, Latin1.decode, List.filter_map]
    rfl
  have hmarks := congrArg (List.filter isMark) hascii
  rw [List.filter_filter, List.filter_filter, isMark_narrows] at hmarks
  rw [hmarks, marks_latin1]

theorem marks_decode (h : Utf8.decode l = .ok t) : t.filter isMark = marksOf l := by
  rw [← Utf8.decodeReplacing_of_decode h, marks_decodeReplacing]

/-! ## Line ends -/

theorem filter_dropEndWhile {p : Char → Bool} (h : ∀ c, p c = true → keep c = false) :
    (dropEndWhile p t).filter keep = t.filter keep := by
  have hdrop (u : List Char) : (u.dropWhile p).filter keep = u.filter keep := by
    induction u with
    | nil => rfl
    | cons c u ih =>
      by_cases hc : p c = true
      · rw [List.dropWhile_cons_of_pos hc, ih, List.filter_cons_of_neg (by simp [h c hc])]
      · rw [List.dropWhile_cons_of_neg hc]
  rw [dropEndWhile, List.filter_reverse, hdrop, ← List.filter_reverse, List.reverse_reverse]

theorem filter_unifyNewlines (hr : keep '\r' = false) (hn : keep '\n' = false) :
    (unifyNewlines t).filter keep = t.filter keep := by
  induction t using unifyNewlines.induct with
  | case1 => rfl
  | case2 rest ih => simp [unifyNewlines, hr, hn, ih]
  | case3 rest hne ih => simp [unifyNewlines, hr, hn, ih]
  | case4 c rest hne hc ih => simp [unifyNewlines, List.filter_cons, ih]

/-! ## Lines -/

/-- A list cut after each `x`. What follows the last one is a piece as well, if
there is anything. -/
def cutAfter {α : Type} [DecidableEq α] (x : α) : List α → List (List α)
  | [] => []
  | a :: l =>
    if a = x then [a] :: cutAfter x l
    else
      match cutAfter x l with
      | [] => [[a]]
      | piece :: pieces => (a :: piece) :: pieces

section

variable {α : Type} [DecidableEq α] {x : α} {u v : List α}

theorem cutAfter_append (h : x ∉ u) : cutAfter x (u ++ x :: v) = (u ++ [x]) :: cutAfter x v := by
  induction u with
  | nil => exact if_pos rfl
  | cons a u ih =>
    obtain ⟨ha, hu⟩ := not_or.1 (mt List.mem_cons.2 h)
    rw [List.cons_append, cutAfter, if_neg (Ne.symm ha), ih hu]
    rfl

theorem cutAfter_last (h : x ∉ u) (hne : u ≠ []) : cutAfter x u = [u] := by
  induction u with
  | nil => exact absurd rfl hne
  | cons a u ih =>
    obtain ⟨ha, hu⟩ := not_or.1 (mt List.mem_cons.2 h)
    rw [cutAfter, if_neg (Ne.symm ha)]
    cases u with
    | nil => rfl
    | cons a' u => rw [ih hu (List.cons_ne_nil _ _)]

end

namespace Supply

/-- A line is closed by its line feed, or it is the last. -/
theorem IsLine.closed_or_last (h : IsLine line rest) :
    (∃ inner, 0x0a ∉ inner ∧ line = inner ++ [0x0a]) ∨ 0x0a ∉ line ∧ rest = [] := by
  obtain ⟨hne, hinner, hended⟩ := h
  have hsplit := List.dropLast_concat_getLast hne
  by_cases hlast : line.getLast hne = 0x0a
  · rw [hlast] at hsplit
    exact .inl ⟨_, hinner, hsplit.symm⟩
  · refine .inr ⟨fun hmem => ?_, hended.resolve_left fun h => ?_⟩
    · rw [← hsplit] at hmem
      rcases List.mem_append.1 hmem with hmem | hmem
      · exact hinner hmem
      · exact hlast (List.mem_singleton.1 hmem).symm
    · rw [List.getLast?_eq_some_getLast hne] at h
      exact hlast (Option.some.inj h)

end Supply

theorem lineFeed_not_mem (h : 0x0a ∉ l) : '\n' ∉ Utf8.decodeReplacing l := by
  intro hmem
  have hascii : '\n' ∈ (Utf8.decodeReplacing l).filter (·.toNat < 0x80) := List.mem_filter.2 ⟨hmem, by decide⟩
  rw [Utf8.filter_decodeReplacing] at hascii
  obtain ⟨b, hb, hchar⟩ := List.mem_map.1 hascii
  obtain rfl : b = 0x0a := ofUInt8_inj.1 hchar
  exact h (List.mem_filter.1 hb).1

/-- The text of lines is cut where the bytes are. -/
theorem cutAfter_decodeReplacing (h : Supply.AreLines lines) :
    cutAfter '\n' (Utf8.decodeReplacing lines.flatten) = lines.map Utf8.decodeReplacing := by
  induction h with
  | nil => rfl
  | @cons line lines hline _ ih =>
    rcases hline.closed_or_last with ⟨inner, hinner, rfl⟩ | ⟨hline', hrest⟩
    · rw [List.flatten_cons, List.append_assoc, List.singleton_append, Utf8.decodeReplacing_append (by decide),
        List.map_cons, Utf8.decodeReplacing_append (by decide), ← ih]
      exact cutAfter_append (lineFeed_not_mem hinner)
    · rw [hrest] at ih
      rw [List.flatten_cons, hrest, List.append_nil, List.map_cons, ← ih]
      exact cutAfter_last (lineFeed_not_mem hline') (Utf8.decodeReplacing_ne_nil hline.ne_nil)

/-! ## Programs -/

theorem marks_lineText : (Supply.lineText line).toList.filter isMark = marksOf line := by
  have hend (c : Char) (h : decide (c = '\r' ∨ c = '\n') = true) : isMark c = false := by
    rcases of_decide_eq_true h with rfl | rfl <;> decide
  rw [Supply.lineText, String.toList_ofList, ← marks_decodeReplacing (l := line)]
  exact filter_dropEndWhile fun c h => hend c (by simpa using h)

theorem marks_fileText {p : String} (h : Supply.fileText l = .ok p) : p.toList.filter isMark = marksOf l := by
  obtain ⟨t, ht, rfl⟩ := map_eq_ok_iff.1 h
  rw [String.toList_ofList, filter_unifyNewlines (by decide) (by decide), marks_decode ht]

theorem exists_fileText (h : Utf8.WellFormed l) : ∃ p, Supply.fileText l = .ok p := by
  obtain ⟨t, ht⟩ := Utf8.exists_decode h
  exact ⟨_, map_eq_ok_iff.2 ⟨t, ht, rfl⟩⟩

theorem Supply.next_file {fs : Files} {path text : String} {unread : List UInt8}
    (hread : fs.read? (Path.normalise path) = some l) (htext : fileText l = .ok text) :
    (argument path).next fs unread = ⟨some (.file (Path.normalise path)), .program text, .spent, unread⟩ := by
  unfold Supply.next
  dsimp only
  rw [hread]
  dsimp only
  rw [htext]

theorem marksOf_flatten : marksOf lines.flatten = (lines.map marksOf).flatten := by
  simp only [marksOf, List.filter_flatten, List.map_flatten, List.map_map]
  rfl

/-- No way of decoding loses, invents or moves a command. Whatever the bytes
are, a run of them as characters runs their commands, and the lines that a
supply makes of them, up to the last, have their commands one after the
other; those lines are what all of the bytes decode to, cut after each line
feed, without the line ends. A file that holds them is a program with their
commands if they are well-formed, wherever the file is and whatever is left
of the input. -/
theorem decoding_keeps_commands (fs : Files) (bytes : List UInt8) :
    ((∀ (s : Setup) (m : Machine),
        m.perform s (.runBytes bytes) = m.perform s (.run (Latin1.decode bytes).toArray)) ∧
      (Latin1.decode bytes).filter isMark = marksOf bytes) ∧
    (∃ texts : List String, ((Supply.Shared.mk (.ofArgument none) bytes).serve fs .all).response = .programs texts ∧
      (texts.flatMap String.toList).filter isMark = marksOf bytes ∧
      texts.map String.toList = (cutAfter '\n' (Utf8.decodeReplacing bytes)).map
        (dropEndWhile fun c => c = '\r' || c = '\n')) ∧
    (Utf8.WellFormed bytes → ∀ path unread, fs.read? (Path.normalise path) = some bytes →
      ∃ text : String, (Supply.ofArgument (some path)).next fs unread =
          ⟨some (.file (Path.normalise path)), .program text, .spent, unread⟩ ∧
        text.toList.filter isMark = marksOf bytes) := by
  refine ⟨⟨fun s m => rfl, marks_latin1⟩, ?_, ?_⟩
  · obtain ⟨lines, hlines, rfl, hdrain⟩ := Supply.drain_lines fs (l := bytes) (n := bytes.length + 2) (by omega)
    refine ⟨lines.map Supply.lineText, congrArg Supply.Served.response hdrain, ?_, ?_⟩
    · rw [List.flatMap_def, List.filter_flatten, marksOf_flatten, List.map_map, List.map_map]
      exact congrArg List.flatten (List.map_congr_left fun line _ => marks_lineText)
    · rw [cutAfter_decodeReplacing hlines, List.map_map, List.map_map]
      exact List.map_congr_left fun line _ => String.toList_ofList
  · intro hbytes path unread hread
    obtain ⟨text, htext⟩ := exists_fileText hbytes
    exact ⟨text, Supply.next_file hread htext, marks_fileText htext⟩

/-- The program in a file of `é`, a carriage return and `+` is a `+` behind two
comments. -/
theorem program_of_file :
    ∃ text : String, (Supply.ofArgument (some "./p")).next ⟨[(["p"], [0xc3, 0xa9, 0x0d, 0x2b])], [], [], false⟩ [] =
        ⟨some (.file "p"), .program text, .spent, []⟩ ∧
      text.toList.filter isMark = ['+'] := by
  have hpath : Path.normalise "./p" = "p" := by
    rw [Path.normalise, Path.names_eq]
    decide +kernel
  have hread : Files.read? ⟨[(["p"], [0xc3, 0xa9, 0x0d, 0x2b])], [], [], false⟩ (Path.normalise "./p") =
      some [0xc3, 0xa9, 0x0d, 0x2b] := by
    rw [hpath, Files.read?, Path.isUsable, Path.names_eq]
    decide +kernel
  have h := (decoding_keeps_commands _ _).2.2 ⟨['é', '\r', '+'], rfl⟩ _ [] hread
  rw [hpath] at h
  exact h

end TapeMachine
