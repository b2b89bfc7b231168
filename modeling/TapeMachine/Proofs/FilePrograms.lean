/-
Programs from files. A file is one program or none: its text, with line feeds
for all line ends, if its bytes are the UTF-8 of a text, and else an error that
tells how far they are (`file_decoded_or_rejected`). The lenient decoder, which
the lines of the input go through, differs from the strict one exactly there.
-/
import TapeMachine.Proofs.Decoding
import TapeMachine.Proofs.Utf8Bytes

namespace TapeMachine

open Text

variable {fs : Files} {path : String} {bytes input : List UInt8} {t : List Char} {e : Unreadable} {n : Nat}

/-! ## Line ends -/

/-- The text with line feeds only: a carriage return that stands before a line feed is
left out, and every other one is a line feed. -/
def withLineFeeds (t : List Char) : List Char :=
  (t.zip (t.tail.map some ++ [none])).filterMap fun (c, next) =>
    if c ≠ '\r' then some c else if next = some '\n' then none else some '\n'

theorem withLineFeeds_cons {c : Char} : withLineFeeds (c :: t) =
    (if c ≠ '\r' then [c] else if t.head? = some '\n' then [] else ['\n']) ++ withLineFeeds t := by
  have hzip : (c :: t).zip ((c :: t).tail.map some ++ [none]) = (c, t.head?) :: t.zip (t.tail.map some ++ [none]) := by
    cases t <;> rfl
  rw [withLineFeeds, hzip, List.filterMap_cons, withLineFeeds]
  by_cases hc : c = '\r'
  · by_cases ht : t.head? = some '\n' <;> simp [hc, ht]
  · simp [hc]

theorem unifyNewlines_eq : unifyNewlines t = withLineFeeds t := by
  induction t using unifyNewlines.induct with
  | case1 => rfl
  | case2 rest ih => simp [unifyNewlines, withLineFeeds_cons, ih]
  | case3 rest hne ih =>
    have hhead : rest.head? ≠ some '\n' := fun h => by
      obtain ⟨rest', rfl⟩ := List.head?_eq_some_iff.1 h
      exact hne rest' rfl
    simp [unifyNewlines, withLineFeeds_cons, ih, hhead]
  | case4 c rest hne hc ih =>
    have hreturn : c ≠ '\r' := hc
    simp [unifyNewlines, withLineFeeds_cons, ih, hreturn]

theorem withLineFeeds_of_not_mem (h : '\r' ∉ t) : withLineFeeds t = t := by
  induction t with
  | nil => rfl
  | cons c t ih =>
    rw [List.mem_cons, not_or] at h
    rw [withLineFeeds_cons, ih h.2, if_pos (Ne.symm h.1), List.singleton_append]

/-! ## Files -/

namespace Supply

theorem next_unreadable {m : Utf8.Malformed} (hread : fs.read? (Path.normalise path) = some bytes)
    (htext : fileText bytes = .error m) :
    (argument path).next fs input = ⟨some (.file (Path.normalise path)), .unreadable ⟨path, m⟩, .spent, input⟩ := by
  unfold Supply.next
  dsimp only
  rw [hread]
  dsimp only
  rw [htext]

theorem fileText_of_encode (h : Utf8.encode t = bytes) : fileText bytes = .ok (.ofList (withLineFeeds t)) := by
  rw [fileText, Utf8.decode_eq_ok_iff.2 h, ← unifyNewlines_eq]
  rfl

/-- Once a supply is spent, it stays so. -/
theorem serveAll_spent : (Shared.mk .spent input).serveAll fs (List.replicate n .next) =
    List.replicate n ⟨[], .drawn .finished, ⟨.spent, input⟩⟩ := by
  induction n with
  | zero => rfl
  | succ n ih =>
    rw [List.replicate_succ, List.replicate_succ, Shared.serveAll]
    exact congrArg (_ :: ·) ih

/-- A supply that has one thing to give gives that and ends. -/
theorem serve_once {said : Announcement} {d : Drawn} {sh : Shared}
    (h : sh.supply.next fs sh.unread = ⟨some said, d, .spent, input⟩) :
    sh.serveAll fs (List.replicate (n + 1) .next) =
      ⟨[said], .drawn d, ⟨.spent, input⟩⟩ :: List.replicate n ⟨[], .drawn .finished, ⟨.spent, input⟩⟩ := by
  rw [List.replicate_succ, Shared.serveAll]
  dsimp only [Shared.serve, Shared.next]
  rw [h]
  exact congrArg (_ :: ·) serveAll_spent

end Supply

/-- The message names the argument, and says where the wrong bytes start. -/
theorem Unreadable.message_eq : ∃ what behind, e.message = "Can not read file: " ++ e.argument ++ ", " ++
      "'utf-8' codec can't decode " ++ what ++ " in position " ++ Nat.repr e.reason.start ++ behind ∧
    (what = "bytes" ∨ ∃ b, what = "byte 0x" ++ Utf8.hexByte b) ∧
    (behind.toList.head? = some ':' ∨ behind.toList.head? = some '-') := by
  obtain ⟨argument, start, wrong, reason⟩ := e
  by_cases hone : ∃ b, wrong = [b]
  · obtain ⟨b, rfl⟩ := hone
    refine ⟨"byte 0x" ++ Utf8.hexByte b, ": " ++ reason.message, ?_, .inr ⟨b, rfl⟩, .inl ?_⟩
    · have hmessage : Unreadable.message ⟨argument, start, [b], reason⟩ = "Can not read file: " ++ argument ++ ", " ++
          ("'utf-8' codec can't decode " ++ ("byte 0x" ++ Utf8.hexByte b ++ " in position " ++ Nat.repr start) ++
            ": " ++ reason.message) := rfl
      rw [hmessage]
      simp only [String.append_assoc]
    · rw [String.toList_append]
      rfl
  · refine ⟨"bytes", "-" ++ Nat.repr (start + wrong.length - 1) ++ ": " ++ reason.message, ?_, .inl rfl, .inr ?_⟩
    · have hmessage : Unreadable.message ⟨argument, start, wrong, reason⟩ = "Can not read file: " ++ argument ++ ", " ++
          ("'utf-8' codec can't decode " ++ ("bytes in position " ++ Nat.repr start ++ "-" ++
            Nat.repr (start + wrong.length - 1)) ++ ": " ++ reason.message) := by
        cases wrong with
        | nil => rfl
        | cons b rest =>
          cases rest with
          | nil => exact absurd ⟨b, rfl⟩ hone
          | cons b' rest => rfl
      have hbytes : "bytes in position " = "bytes" ++ " in position " := rfl
      rw [hmessage, hbytes]
      simp only [String.append_assoc]
    · simp only [String.toList_append, String.append_assoc]
      rfl

/-- A file is one program or none, and is announced once in either case. If its bytes are
the UTF-8 of a text, that text is the program, with line feeds for its line ends, and the
two decoders agree on it. Else the error names the argument and the longest stretch of the
first bytes that is a text, behind which the lenient decoder puts a replacement character. -/
theorem file_decoded_or_rejected (hread : fs.read? (Path.normalise path) = some bytes) :
    let file : Supply.Shared := ⟨.ofArgument (some path), input⟩
    let spent : Supply.Shared := ⟨.spent, input⟩
    let said : Announcement := .file (Path.normalise path)
    let ends : List Supply.Served := List.replicate n ⟨[], .drawn .finished, spent⟩
    (∀ t, Utf8.encode t = bytes →
      file.serveAll fs (List.replicate (n + 1) .next) =
        ⟨[said], .drawn (.program (.ofList (withLineFeeds t))), spent⟩ :: ends ∧
      file.serve fs .all = ⟨[said], .programs [.ofList (withLineFeeds t)], spent⟩ ∧
      ('\r' ∉ t → withLineFeeds t = t) ∧ Utf8.decode bytes = .ok t ∧ Utf8.decodeReplacing bytes = t) ∧
    (¬ Utf8.WellFormed bytes → ∃ e : Unreadable,
      file.serveAll fs (List.replicate (n + 1) .next) = ⟨[said], .drawn (.unreadable e), spent⟩ :: ends ∧
      file.serve fs .all = ⟨[said], .drawn (.unreadable e), spent⟩ ∧
      e.argument = path ∧ IsGreatest {k | k ≤ bytes.length ∧ Utf8.WellFormed (bytes.take k)} e.reason.start ∧
      (∃ what behind, e.message = "Can not read file: " ++ path ++ ", " ++ "'utf-8' codec can't decode " ++ what ++
          " in position " ++ Nat.repr e.reason.start ++ behind ∧
        (what = "bytes" ∨ ∃ b, what = "byte 0x" ++ Utf8.hexByte b) ∧
        (behind.toList.head? = some ':' ∨ behind.toList.head? = some '-')) ∧
      ∃ t rest, Utf8.encode t = bytes.take e.reason.start ∧
        Utf8.decodeReplacing bytes = t ++ Utf8.replacement :: rest) := by
  intro file spent said ends
  constructor
  · intro t ht
    have hnext : file.supply.next fs file.unread = _ :=
      Supply.next_file hread (Supply.fileText_of_encode ht)
    have hdecode := Utf8.decode_eq_ok_iff.2 ht
    refine ⟨Supply.serve_once hnext, ?_, withLineFeeds_of_not_mem, hdecode, Utf8.decodeReplacing_of_decode hdecode⟩
    dsimp only [Supply.Shared.serve]
    rw [Supply.Shared.drain, hnext]
    rfl
  · intro hbytes
    cases hdecode : Utf8.decode bytes with
    | ok t => exact absurd (Utf8.wellFormed_iff.2 ⟨t, hdecode⟩) hbytes
    | error m =>
      have htext : Supply.fileText bytes = .error m := by rw [Supply.fileText, hdecode, Except.map]
      have hnext : file.supply.next fs file.unread = _ := Supply.next_unreadable hread htext
      obtain ⟨hgreatest, hreplaced⟩ := Utf8.decode_eq_error hdecode
      refine ⟨⟨path, m⟩, Supply.serve_once hnext, ?_, rfl, hgreatest, Unreadable.message_eq (e := ⟨path, m⟩), hreplaced⟩
      dsimp only [Supply.Shared.serve]
      rw [Supply.Shared.drain, hnext]
      rfl

/-- A three-byte character that a `-` cuts off after two bytes, behind a `+`. -/
theorem cut_character_is_unreadable :
    ∃ e : Unreadable, (Supply.Shared.mk (.ofArgument (some "./p")) []).serveAll
          ⟨[(["p"], [0x2b, 0xe2, 0x82, 0x2d])], [], [], false⟩ [.next, .next] =
        [⟨[.file "p"], .drawn (.unreadable e), ⟨.spent, []⟩⟩, ⟨[], .drawn .finished, ⟨.spent, []⟩⟩] ∧
      e.argument = "./p" ∧ e.reason.start = 1 := by
  have hpath : Path.normalise "./p" = "p" := by
    rw [Path.normalise, Path.names_eq]
    decide +kernel
  have hread : Files.read? ⟨[(["p"], [0x2b, 0xe2, 0x82, 0x2d])], [], [], false⟩ (Path.normalise "./p") =
      some [0x2b, 0xe2, 0x82, 0x2d] := by
    rw [hpath, Files.read?, Path.isUsable, Path.names_eq]
    decide +kernel
  have hone : IsGreatest {k | k ≤ 4 ∧ Utf8.WellFormed ([0x2b, 0xe2, 0x82, 0x2d].take k)} 1 := by
    refine ⟨⟨by decide, ['+'], rfl⟩, ?_⟩
    rintro k ⟨hk, hw⟩
    obtain ⟨t, ht⟩ := Utf8.wellFormed_iff.1 hw
    by_contra hlong
    have hcases : k = 2 ∨ k = 3 ∨ k = 4 := by omega
    rcases hcases with rfl | rfl | rfl <;> cases ht
  have hbytes : ¬ Utf8.WellFormed [0x2b, 0xe2, 0x82, 0x2d] := fun hw => absurd (hone.2 ⟨Nat.le_refl 4, hw⟩) (by decide)
  obtain ⟨e, hserved, -, hargument, hgreatest, -⟩ :=
    (file_decoded_or_rejected (n := 1) hread).2 hbytes
  rw [hpath] at hserved
  exact ⟨e, hserved, hargument, hgreatest.unique hone⟩

end TapeMachine
