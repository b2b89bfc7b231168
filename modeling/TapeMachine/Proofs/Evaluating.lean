/-
What an evaluation gives back. Nothing but the tape and the input of its
machine decides what a plain run comes to: not how it is shown, nor what was
done before (`Machine.map_result_run`). What it has written are the cells that
it found under its head at each `.` (`Run.written_steps`), and that is the
result (`evaluation_gives_output`).
-/
import Mathlib.Data.List.TakeWhile
import TapeMachine.Evaluation
import TapeMachine.Proofs.Audit
import TapeMachine.Proofs.Views

namespace TapeMachine

open Machine Run Program Text

variable {s s' : Setup} {p : Program} {i n : Nat} {m m' : Machine} {r : Run} {c : Char} {t : List Char}
  {g : Machine → Machine}

/-! ## Encodable texts -/

namespace Text.Latin1

theorem fits_iff : fits c = true ↔ c.toNat ≤ 255 := by
  rw [fits, decide_eq_true_iff, Nat.lt_succ_iff]

theorem encode_eq_ok (h : ∀ c ∈ t, c.toNat ≤ 255) : encode t = .ok (t.map fun c => UInt8.ofNat c.toNat) := by
  have hfits : t.dropWhile fits = [] := by
    rw [List.dropWhile_eq_nil_iff]
    exact fun c hc => fits_iff.2 (h c hc)
  rw [encode, hfits]

theorem decode_encoded (h : ∀ c ∈ t, c.toNat ≤ 255) : decode (t.map fun c => UInt8.ofNat c.toNat) = t := by
  rw [decode, List.map_map]
  refine (List.map_congr_left fun c hc => ?_).trans (List.map_id t)
  have hle := h c hc
  have hmod : c.toNat % 256 = c.toNat := Nat.mod_eq_of_lt (by omega)
  refine Char.toNat_inj.1 ?_
  change (UInt8.ofNat c.toNat).toNat = c.toNat
  rw [UInt8.toNat_ofNat', hmod]

/-- The error is about the first stretch that has no bytes, all of it. -/
theorem exists_encode_eq_error (h : ∃ c ∈ t, 255 < c.toNat) :
    ∃ before c run after, t = before ++ c :: run ++ after ∧ (∀ d ∈ before, d.toNat ≤ 255) ∧
      (∀ d ∈ c :: run, 255 < d.toNat) ∧ (∀ d ∈ after.head?, d.toNat ≤ 255) ∧
      encode t = .error ⟨c, before.length, before.length + (c :: run).length⟩ := by
  have hlarge {d : Char} : (!fits d) = true ↔ 255 < d.toNat := by
    rw [Bool.not_eq_true', ← Bool.not_eq_true, fits_iff, Nat.not_le]
  have hhead {u : List Char} {q : Char → Bool} : ∀ d ∈ (u.dropWhile q).head?, q d = false := fun d hd => by
    have hq := List.head?_dropWhile_not q u
    rw [Option.mem_def.1 hd] at hq
    simpa using hq
  cases hdrop : t.dropWhile fits with
  | nil =>
    obtain ⟨c, hc, hlt⟩ := h
    have hfits := fits_iff.1 (List.dropWhile_eq_nil_iff.1 hdrop c hc)
    exact absurd hlt (Nat.not_lt.2 hfits)
  | cons c rest =>
    have hc : fits c = false := hhead (u := t) c (by rw [hdrop]; rfl)
    refine ⟨t.takeWhile fits, c, rest.takeWhile (!fits ·), rest.dropWhile (!fits ·), ?_, ?_, ?_, ?_, ?_⟩
    · rw [List.append_assoc, List.cons_append, List.takeWhile_append_dropWhile, ← hdrop,
        List.takeWhile_append_dropWhile]
    · exact fun d hd => fits_iff.1 (List.mem_takeWhile_imp hd)
    · refine List.forall_mem_cons.2 ⟨hlarge.1 (by rw [hc]; rfl), fun d hd => hlarge.1 ?_⟩
      exact List.mem_takeWhile_imp (p := (!fits ·)) hd
    · exact fun d hd => fits_iff.1 (by simpa using hhead d hd)
    · rw [encode, hdrop, List.length_cons]
      dsimp only
      rw [Nat.add_assoc, Nat.add_comm 1]

end Text.Latin1

/-! ## What a run comes to -/

/-- The fault of a run, or what it has written. -/
def Run.Ending.result (e : Ending) : Except Fault String :=
  match e.fault with
  | some f => .error f
  | none => .ok (e.machine.log.textOn .output)

/-- A retelling that keeps what is written keeps what a run comes to. -/
theorem Machine.Retelling.map_result (hg : Retelling s s' g)
    (hout : ∀ m, (g m).log.textOn .output = m.log.textOn .output) :
    ((g m).run s' p).map Ending.result = (m.run s p).map Ending.result := by
  rw [hg.run, Option.map_map]
  refine congrArg (Option.map · _) (funext fun e => ?_)
  obtain ⟨f, m⟩ := e
  cases f with
  | some f => rfl
  | none => exact congrArg Except.ok (hout m)

/-- A run that is not debugged does not pause. -/
theorem Run.step_pause {pause : Pause} (hs : s.debug = false) : step { s with pause := pause } p r = step s p r := by
  cases r with
  | ended f m => rfl
  | going i m =>
    have hact {c : Char} :
        m.act { s with pause := pause } p i (Command.ofChar? c) = m.act s p i (Command.ofChar? c) := by
      cases Command.ofChar? c with
      | none => rfl
      | some cmd => cases cmd <;> rfl
    rw [step, step]
    cases p[i]? with
    | none => rfl
    | some c =>
      dsimp only
      rw [hact]
      obtain ⟨e, m'⟩ := m.act s p i (Command.ofChar? c)
      cases e with
      | error f => rfl
      | ok j =>
        have hplain : Setup.debug { s with pause := pause } = false := hs
        exact (afterStep_of_debug_eq_false hplain).trans (afterStep_of_debug_eq_false hs).symm

theorem Run.steps_pause {pause : Pause} (hs : s.debug = false) :
    steps { s with pause := pause } p n r = steps s p n r := by
  induction n generalizing r with
  | zero => rfl
  | succ n ih => rw [steps_succ, steps_succ, step_pause hs, ih]

theorem Machine.run_pause {pause : Pause} (hs : s.debug = false) : m.run { s with pause := pause } p = m.run s p := by
  ext e
  simp only [run_eq_some_iff, steps_pause hs]

/-- Without a limit, no pause is counted. -/
theorem Machine.retelling_pauses {k : Nat} (hs : s.pause = .silent) :
    Retelling s s fun m => { m with pauses := k } where
  debug := rfl
  tape _ := rfl
  loops _ := rfl
  moved _ _ := rfl
  inside _ _ := rfl
  countStep _ := rfl
  put _ _ := rfl
  readItem m := by
    obtain ⟨tape, loops, unread, tally, pauses, log⟩ := m
    cases unread <;> rfl
  report _ := rfl
  between _ _ _ := rfl
  pause m := by simp only [pause, hs]

/-- What a plain run comes to is decided by the tape and the input. -/
theorem Machine.map_result_run (hs : s.debug = false) :
    (m.quiet.run s p).map Ending.result = ((start m.tape m.unread).run .silent p).map Ending.result := by
  obtain ⟨debug, view, pause⟩ := s
  obtain rfl : debug = false := hs
  -- the two setups and the two machines differ in four things, which are taken away one by one
  let shown : Setup := ⟨false, view, .silent⟩
  have hview : Retelling shown .silent (redrawn Report.unwindowed) := retelling_redrawn (s := shown) fun _ => rfl
  calc (m.quiet.run ⟨false, view, pause⟩ p).map Ending.result
    _ = (m.quiet.run shown p).map Ending.result :=
      congrArg (Option.map _) (run_pause (s := ⟨false, view, pause⟩) rfl).symm
    _ = (m.quiet.run .silent p).map Ending.result := by
      refine (hview.map_result (m := m.quiet) fun m => ?_).symm
      rw [redrawn_unwindowed]
      exact Transcript.textOn_output_unwindowed
    _ = (m.renewed.run .silent p).map Ending.result :=
      (retelling_onto (a := m.tally) (l := [])).map_result (m := m.renewed) fun m => by
        rw [onto, List.append_nil, Transcript.textOn, Transcript.printed_later]
        rfl
    _ = ((start m.tape m.unread).run .silent p).map Ending.result :=
      (retelling_pauses (k := m.pauses) rfl).map_result (m := start m.tape m.unread) fun _ => rfl


/-! ## What is written -/

namespace Run

/-- The characters that `n` steps write: those of the cells that are found at each `.`. -/
def emitted (s : Setup) (p : Program) : Nat → Run → List Char
  | 0, _ => []
  | _ + 1, .ended _ _ => []
  | n + 1, .going i m =>
    (if p[i]? = some '.' then [Char.ofUInt8 m.tape.cell] else []) ++ emitted s p n (step s p (.going i m))

theorem length_emitted : (emitted s p n r).length = (trace s p n r).count '.' := by
  induction n generalizing r with
  | zero => rw [trace_zero, emitted]; rfl
  | succ n ih =>
    cases r with
    | ended f m => rw [trace_ended, emitted]; rfl
    | going i m =>
      rw [emitted, trace_going, List.length_append, List.count_append, ih]
      congr 1
      cases p[i]? with
      | none => rfl
      | some c => by_cases hc : c = '.' <;> simp [hc]

theorem emitted_lt : ∀ c ∈ emitted s p n r, c.toNat < 256 := by
  induction n generalizing r with
  | zero => rw [emitted]; nofun
  | succ n ih =>
    cases r with
    | ended f m => rw [emitted]; nofun
    | going i m =>
      rw [emitted, List.forall_mem_append]
      refine ⟨fun c hc => ?_, ih⟩
      split at hc
      · obtain rfl := List.mem_singleton.1 hc
        exact m.tape.cell.toNat_lt
      · cases hc

end Run

/-- Of the characters that are no brackets only `.` writes, and it does not fail. -/
theorem Machine.written_of_obey {c : Plain} :
    match m.obey s c with
    | .ok m' => m'.log.written = m.log.written ++ if c.1 = '.' then [Char.ofUInt8 m.tape.cell] else []
    | .error _ => c.1 ≠ '.' := by
  have ho := m.obeys (s := s) (c := c)
  generalize m.obey s c = e at ho ⊢
  by_cases hc : c.1 = '.'
  · have hchar : c.1 = Command.put.char := hc
    rw [Command.ofChar?_eq_some_iff.2 hchar] at ho
    cases ho
    rw [if_pos hc]
    exact Transcript.written_append (t := [.put (Char.ofUInt8 m.tape.cell)])
  · have hput : Command.ofChar? c.1 ≠ some .put := mt Command.ofChar?_eq_some_iff.1 hc
    rw [if_neg hc, List.append_nil]
    generalize Command.ofChar? c.1 = cmd at ho hput
    cases ho with
    | put => exact absurd rfl hput
    | comment | right | left | increment | decrement => rfl
    | pastRight | pastLeft => exact hc
    | get =>
      obtain ⟨tape, loops, unread, tally, pauses, log⟩ := m
      cases unread with
      | nil =>
        exact (Transcript.written_append (t := [.noInput, .read none, .flush .output])).trans (List.append_nil _)
      | cons b rest =>
        exact (Transcript.written_append (t := [.read (some b), .flush .output])).trans (List.append_nil _)
    | report =>
      exact (Transcript.written_append (t := [.state (m.tape.report s.view)])).trans (List.append_nil _)

theorem Run.written_step (hs : s.debug = false) : (step s p (.going i m)).machine.log.written =
    m.log.written ++ if p[i]? = some '.' then [Char.ofUInt8 m.tape.cell] else [] := by
  cases hc : p[i]? with
  | none =>
    rw [step_past hc, if_neg nofun, List.append_nil]
    rfl
  | some c =>
    simp only [Option.some.injEq]
    rcases or_assoc.2 (char_cases c) with hb | ⟨c, rfl⟩
    · have hput : c ≠ '.' := by rcases hb with rfl | rfl <;> decide
      rw [if_neg hput, List.append_nil]
      rcases step_bracket (m := m) hs hc hb with ⟨j, l, h⟩ | ⟨f, h⟩
      · rw [h m rfl rfl]
        rfl
      · rw [h m rfl rfl]
        rfl
    · have hwritten := m.written_of_obey (s := s) (c := c)
      cases ho : m.obey s c with
      | ok m' =>
        rw [ho] at hwritten
        rw [(Dispatch.plain ho).step_eq_going hs hc]
        exact hwritten
      | error f =>
        rw [ho] at hwritten
        rw [(Dispatch.fault ho).step_eq hc, if_neg hwritten, List.append_nil]
        rfl

/-- What a plain run has written is what it has found at each `.`. -/
theorem Run.written_steps (hs : s.debug = false) :
    (steps s p n r).machine.log.written = r.machine.log.written ++ emitted s p n r := by
  induction n generalizing r with
  | zero => rw [emitted, List.append_nil]; rfl
  | succ n ih =>
    rw [steps_succ, ih]
    cases r with
    | ended f m => rw [emitted, step_ended]; cases n <;> rfl
    | going i m => rw [written_step hs, emitted, List.append_assoc]; rfl

/-! ## Evaluations -/

namespace Program

theorem evaluate_of_encoded {input : Input} {items : List UInt8} {length : Int} (h : input.encoded = .ok items)
    (hn : 1 ≤ length) : p.evaluate input length =
      ((start (.blank length.toNat (Int.lt_toNat.2 hn)) items).run .silent p).map
        fun e => e.result.mapError .fault := by
  have htape : Tape.ofLength length = .ok (.blank length.toNat (Int.lt_toNat.2 hn)) :=
    Tape.ofLength_eq_ok_iff.2 ⟨hn, rfl⟩
  rw [evaluate, h, htape]
  refine congrArg (Option.map · _) (funext fun e => ?_)
  obtain ⟨f, m⟩ := e
  cases f <;> rfl

/-- Where there is a result, the run has come to its end. -/
theorem exists_run_of_evaluate {input : Input} {length : Int} {out : String}
    (h : p.evaluate input length = some (.ok out)) :
    ∃ items, input.encoded = .ok items ∧ ∃ (hn : 1 ≤ length) (k : Nat) (m' : Machine),
      steps .silent p k (.going 0 (start (.blank length.toNat (Int.lt_toNat.2 hn)) items)) = .ended none m' ∧
        m'.log.textOn .output = out := by
  cases hinput : input.encoded with
  | error e =>
    rw [evaluate, hinput] at h
    cases h
  | ok items =>
    refine ⟨items, rfl, ?_⟩
    by_cases hn : 1 ≤ length
    · rw [evaluate_of_encoded hinput hn] at h
      obtain ⟨⟨f, m'⟩, hrun, hresult⟩ := Option.map_eq_some_iff.1 h
      obtain ⟨k, hk⟩ := run_eq_some_iff.1 hrun
      cases f with
      | some f => cases hresult
      | none => exact ⟨hn, k, m', hk, Except.ok.inj hresult⟩
    · have htape : Tape.ofLength length = .error ⟨length⟩ := dif_neg hn
      rw [evaluate, hinput, htape] at h
      cases h

/-- A text that Latin-1 can write is evaluated as its bytes are, whatever the program
does. That is what any machine comes to whose tape is blank and whose input is the text,
if it does not debug: what it has done before, how it draws and how it would pause make
no difference. A text with a character that has no byte is refused before the program and
the tape are looked at, with the first stretch of such characters. And a result is what
was found in the cells at each `.`, in order: as many characters as `.` were done, all of
them bytes, and nothing else. -/
theorem evaluation_gives_output (p : Program) :
    (∀ s length, (∀ c ∈ s, c.toNat ≤ 255) →
      let bytes := s.map fun c => UInt8.ofNat c.toNat
      Latin1.decode bytes = s ∧ p.evaluate (.text s) length = p.evaluate (.bytes bytes) length ∧
      ∀ (hn : 1 ≤ length) (setup : Setup) (m : Machine), setup.debug = false →
        m.tape = .blank length.toNat (Int.lt_toNat.2 hn) → m.unread = (Input.text s).items →
        p.evaluate (.text s) length = (m.quiet.run setup p).map fun e => e.result.mapError .fault) ∧
    (∀ s, (∃ c ∈ s, 255 < c.toNat) → ∃ before c run after, s = before ++ c :: run ++ after ∧
      (∀ d ∈ before, d.toNat ≤ 255) ∧ (∀ d ∈ c :: run, 255 < d.toNat) ∧ (∀ d ∈ after.head?, d.toNat ≤ 255) ∧
      ∀ length, p.evaluate (.text s) length =
        some (.error (.input ⟨c, before.length, before.length + (c :: run).length⟩))) ∧
    ∀ input length out, p.evaluate input length = some (.ok out) →
      ∃ items, input.encoded = .ok items ∧ ∃ (hn : 1 ≤ length) (k : Nat) (m' : Machine),
        let first := Run.going 0 (start (.blank length.toNat (Int.lt_toNat.2 hn)) items)
        steps .silent p k first = .ended none m' ∧ out.toList = emitted .silent p k first ∧
          out.length = (trace .silent p k first).count '.' ∧ ∀ c ∈ out.toList, c.toNat < 256 := by
  refine ⟨fun s length hs => ?_, fun s hs => ?_, fun input length out h => ?_⟩
  · have hitems : Input.encoded (.text s) = .ok (s.map fun c => UInt8.ofNat c.toNat) := Latin1.encode_eq_ok hs
    refine ⟨Latin1.decode_encoded hs, ?_, fun hn setup m hsetup htape hunread => ?_⟩
    · rw [evaluate, evaluate, hitems]
      rfl
    · have hrun := map_result_run (p := p) (m := m) hsetup
      have hmap := congrArg (Option.map (Except.mapError EvaluationError.fault)) hrun
      rw [Option.map_map, Option.map_map, htape, hunread] at hmap
      rw [evaluate_of_encoded hitems hn]
      exact hmap.symm
  · obtain ⟨before, c, run, after, hsplit, hbefore, hrun, hafter, hencode⟩ := Latin1.exists_encode_eq_error hs
    have hinput : Input.encoded (.text s) = .error _ := hencode
    refine ⟨before, c, run, after, hsplit, hbefore, hrun, hafter, fun length => ?_⟩
    rw [evaluate, hinput]
  · obtain ⟨items, hitems, hn, k, m', hk, hout⟩ := exists_run_of_evaluate h
    let first := Run.going 0 (start (.blank length.toNat (Int.lt_toNat.2 hn)) items)
    have hwritten := written_steps (s := .silent) (p := p) (n := k) (r := first) rfl
    have hlist : out.toList = emitted .silent p k first := by
      rw [← hout, Transcript.textOn_output, String.toList_ofList]
      rwa [hk] at hwritten
    refine ⟨items, hitems, hn, k, m', hk, hlist, ?_, ?_⟩
    · rw [← String.length_toList, hlist, length_emitted]
    · rw [hlist]
      exact emitted_lt

end Program

end TapeMachine
