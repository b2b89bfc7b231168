/-
Only the commands of a program matter. The run of a program and the run of
what is left of it without some of its comments follow each other: the second
stands still while the first passes comments, and otherwise both do the same
character (`Follows.advance`), at positions that correspond. So two programs
with the same commands run alike (`run_depends_on_commands`), whatever
stands between the commands.
-/
import TapeMachine.Proofs.Record
import TapeMachine.Proofs.Selection

namespace TapeMachine

open Machine Run Program

variable {s : Setup} {p q : Program} {keep : Char → Bool} {i n : Nat} {m m' m₁ : Machine} {r r' : Run}

/-- The eight commands of the language. -/
def isCommand (c : Char) : Bool := ['>', '<', '+', '-', '.', ',', '[', ']'].contains c

/-- All that does something: the eight commands and `#`. -/
def isMark (c : Char) : Bool := isCommand c || c == '#'

/-- A character that is no command can only report. -/
theorem ofChar?_of_not_command {c : Char} (h : isCommand c = false) :
    Command.ofChar? c = none ∨ c = '#' ∧ Command.ofChar? c = some .report := by
  unfold Command.ofChar?
  split <;> simp_all [isCommand]

/-! ## Transcripts without the reports -/

/-- The event is a report that a program asked for. -/
def Event.isState : Event → Bool
  | .state _ => true
  | _ => false

def Transcript.unreported (t : Transcript) : Transcript := t.filter (!·.isState)

namespace Transcript

theorem unreported_append {t u : Transcript} : unreported (t ++ u) = unreported t ++ unreported u :=
  List.filter_append ..

theorem unreported_cons {e : Event} {t : Transcript} : unreported (e :: t) = unreported [e] ++ unreported t :=
  unreported_append (t := [e])

/-- Reports are no output. -/
theorem textOn_output_eq_of_unreported_eq {t u : Transcript} (h : t.unreported = u.unreported) :
    t.textOn .output = u.textOn .output := by
  have hkeep (e : Event) : (if !e.isState then e.printed else none).filter (·.1 = Channel.output) =
      e.printed.filter (·.1 = Channel.output) := by
    cases e <;> rfl
  have hread (v : Transcript) : v.reverse.filterMap (fun e => if !e.isState then e.printed else none) =
      v.unreported.reverse.filterMap Event.printed := by
    rw [unreported, ← List.filter_reverse, List.filterMap_filter]
  exact textOn_eq_of_reading_eq hkeep (by rw [hread, hread, h])

end Transcript

/-! ## Runs that follow each other -/

/-- The same fault, at positions that correspond. -/
inductive Fault.Matches (R : Nat → Nat → Prop) : Fault → Fault → Prop
  | overflow {place : Int} : Matches R (.overflow place) (.overflow place)
  | unclosed {i j : Nat} : R i j → Matches R (.unclosed i) (.unclosed j)
  | unopened {i j : Nat} : R i j → Matches R (.unopened i) (.unopened j)

/-- A machine in the program and one in what is left of it, after the same
commands; the steps are not compared. -/
structure Machine.Follows (keep : Char → Bool) (p : Program) (m m' : Machine) : Prop where
  tape : m.tape = m'.tape
  loops : List.Forall₂ (p.Nth keep) m.loops m'.loops
  unread : m.unread = m'.unread
  reads : m.tally.reads = m'.tally.reads
  readErrors : m.tally.readErrors = m'.tally.readErrors
  writes : m.tally.writes = m'.tally.writes
  log : m.log.unreported = m'.log.unreported
  exact : keep '#' = true → m.log = m'.log

inductive Run.Follows (keep : Char → Bool) (p : Program) : Run → Run → Prop
  | going {i : Nat} {m m' : Machine} : m.Follows keep p m' → Follows keep p (.going i m) (.going (p.rank keep i) m')
  | ended {f f' : Option Fault} {m m' : Machine} : Option.Rel (Fault.Matches (p.Nth keep)) f f' →
    m.Follows keep p m' → Follows keep p (.ended f m) (.ended f' m')

namespace Machine.Follows

theorem countStep (h : m.Follows keep p m') : m.countStep.Follows keep p m' :=
  ⟨h.tape, h.loops, h.unread, h.reads, h.readErrors, h.writes, h.log, h.exact⟩

theorem countStep_right (h : m.Follows keep p m') : m.Follows keep p m'.countStep :=
  ⟨h.tape, h.loops, h.unread, h.reads, h.readErrors, h.writes, h.log, h.exact⟩

theorem inside {l l' : List Nat} (h : m.Follows keep p m') (hl : List.Forall₂ (p.Nth keep) l l') :
    (m.inside l).Follows keep p (m'.inside l') :=
  ⟨h.tape, hl, h.unread, h.reads, h.readErrors, h.writes, h.log, h.exact⟩

/-- What is no command leaves no mark but a report. -/
theorem idle {c : Char} {e : Except Fault Machine} (h : m.Follows keep p m') (hc : isCommand c = false)
    (hk : keep c = false) (ho : Obeys s m (Command.ofChar? c) e) : ∃ m₁, e = .ok m₁ ∧ m₁.Follows keep p m' := by
  rcases ofChar?_of_not_command hc with hn | ⟨rfl, hn⟩
  · rw [hn] at ho
    cases ho
    exact ⟨_, rfl, h.countStep⟩
  · rw [hn] at ho
    cases ho
    refine ⟨_, rfl, ⟨h.tape, h.loops, h.unread, h.reads, h.readErrors, h.writes, ?_, fun hk' => ?_⟩⟩
    · rw [← h.log]
      rfl
    · rw [hk] at hk'
      cases hk'

theorem readItem (h : m.Follows keep p m') : m.readItem.2.Follows keep p m'.readItem.2 := by
  unfold Machine.readItem
  rw [← h.unread]
  cases m.unread with
  | nil =>
    have hlog (t : Transcript) : Transcript.unreported (.noInput :: .read none :: .flush .output :: t) =
        .noInput :: .read none :: .flush .output :: t.unreported := rfl
    refine ⟨h.tape, h.loops, rfl, h.reads, congrArg (· + 1) h.readErrors, h.writes, ?_, fun hk => ?_⟩
    · simp only [hlog, h.log]
    · simp only [h.exact hk]
  | cons b rest =>
    have hlog (t : Transcript) : Transcript.unreported (.read (some b) :: .flush .output :: t) =
        .read (some b) :: .flush .output :: t.unreported := rfl
    refine ⟨h.tape, h.loops, rfl, congrArg (· + 1) h.reads, h.readErrors, h.writes, ?_, fun hk => ?_⟩
    · simp only [hlog, h.log]
    · simp only [h.exact hk]

/-- Both do the same at the same command. -/
theorem obeys {cmd : Option Command} (h : m.Follows keep p m') (ho : Obeys s m cmd (.ok m₁)) :
    ∃ m₁', Obeys s m' cmd (.ok m₁') ∧ m₁.Follows keep p m₁' := by
  have hget := h.readItem
  obtain ⟨ht, hl, hu, hr, he, hw, hlog, hexact⟩ := h
  cases ho with
  | comment => exact ⟨_, .comment, ht, hl, hu, hr, he, hw, hlog, hexact⟩
  | right ho => exact ⟨_, .right (ht ▸ ho), rfl, hl, hu, hr, he, hw, hlog, hexact⟩
  | left ho => exact ⟨_, .left (ht ▸ ho), rfl, hl, hu, hr, he, hw, hlog, hexact⟩
  | increment =>
    exact ⟨_, .increment, congrArg (fun t => t.write (t.cell + 1)) ht, hl, hu, hr, he, hw, hlog, hexact⟩
  | decrement =>
    exact ⟨_, .decrement, congrArg (fun t => t.write (t.cell - 1)) ht, hl, hu, hr, he, hw, hlog, hexact⟩
  | put =>
    refine ⟨_, .put, ht, hl, hu, hr, he, congrArg (· + 1) hw, ?_, fun hk => ?_⟩
    · simp only [Machine.countStep]
      rw [Transcript.unreported_cons, Transcript.unreported_cons (t := m'.log), hlog, ht]
    · simp only [Machine.countStep, hexact hk, ht]
  | report =>
    refine ⟨_, .report, ht, hl, hu, hr, he, hw, hlog, fun hk => ?_⟩
    simp only [Machine.countStep, Machine.report, note, hexact hk, ht]
  | get =>
    refine ⟨_, .get, ?_, hget.loops, hget.unread, hget.reads, hget.readErrors, hget.writes, hget.log, hget.exact⟩
    simp only [Machine.countStep, readItem_fst, ht, hu]

theorem obeys_error {cmd : Option Command} {f : Fault} (h : m.Follows keep p m') (ho : Obeys s m cmd (.error f)) :
    Obeys s m' cmd (.error f) ∧ ∃ place, f = .overflow place := by
  have ht := h.tape
  cases ho with
  | pastRight ho =>
    rw [ht] at ho ⊢
    exact ⟨.pastRight ho, _, rfl⟩
  | pastLeft ho =>
    rw [ht] at ho ⊢
    exact ⟨.pastLeft ho, _, rfl⟩

end Machine.Follows

/-! ## Steps -/

namespace Run.Follows

/-- The other run stands still while a comment is passed. -/
theorem idle {c : Char} (hs : s.debug = false) (h : m.Follows keep p m') (hp : p[i]? = some c)
    (hc : isCommand c = false) (hk : keep c = false) :
    ∃ m₁, step s p (.going i m) = .going (i + 1) m₁ ∧ m₁.Follows keep p m' := by
  rcases char_cases c with rfl | rfl | ⟨c, rfl⟩
  · exact absurd hc (by decide)
  · exact absurd hc (by decide)
  · obtain ⟨m₁, ho, h₁⟩ := h.idle hc hk (m.obeys (s := s) (c := c))
    exact ⟨m₁, (Dispatch.plain ho).step_eq_going hs hp, h₁⟩

variable (hkeep : ∀ c, isCommand c = true → keep c = true)
include hkeep

theorem enter (hs : s.debug = false) (h : m.Follows keep p m') (hp : p[i]? = some '[') :
    (step s p (.going i m)).Follows keep p (step s (p.only keep) (.going (p.rank keep i) m')) := by
  have he := hkeep '[' rfl
  have hl := hkeep ']' rfl
  have hq := getElem?_only_rank hp he
  by_cases hz : m.tape.cell = 0
  · -- a loop to skip closes in both programs or in none
    by_cases hpart : ∃ j, p.Partners i j
    · obtain ⟨j, hj⟩ := hpart
      rw [(Dispatch.skip hz hj).step_eq_going hs hp,
        (Dispatch.skip (h.tape ▸ hz) (partners_only he hl hj)).step_eq_going hs hq, ← rank_succ_of_keep hj.leave hl]
      exact .going h.countStep.countStep_right
    · have hpart' : ¬ ∃ j, (p.only keep).Partners (p.rank keep i) j :=
        fun ⟨j, hj⟩ => hpart (exists_partners_of_only he hl hp hj)
      rw [(Dispatch.unclosed hz hpart).step_eq hp, (Dispatch.unclosed (h.tape ▸ hz) hpart').step_eq hq]
      exact .ended (.some (.unclosed ⟨⟨_, hp, he⟩, rfl⟩)) h
  · rw [(Dispatch.enter hz).step_eq_going hs hp, (Dispatch.enter (h.tape ▸ hz)).step_eq_going hs hq,
      ← rank_succ_of_keep hp he]
    exact .going (h.inside (.cons ⟨⟨_, hp, he⟩, rfl⟩ h.loops)).countStep.countStep_right

theorem leave (hs : s.debug = false) (h : m.Follows keep p m') (hp : p[i]? = some ']') :
    (step s p (.going i m)).Follows keep p (step s (p.only keep) (.going (p.rank keep i) m')) := by
  have hl := hkeep ']' rfl
  have hq := getElem?_only_rank hp hl
  by_cases hz : m.tape.cell = 0
  · rw [(Dispatch.leave hz).step_eq_going hs hp, (Dispatch.leave (h.tape ▸ hz)).step_eq_going hs hq,
      ← rank_succ_of_keep hp hl]
    exact .going (h.inside (forall₂_tail h.loops)).countStep.countStep_right
  · have hloops := h.loops
    generalize hx : m.loops = l at hloops
    generalize hx' : m'.loops = l' at hloops
    cases hloops with
    | nil =>
      rw [(Dispatch.unopened hz hx).step_eq hp, (Dispatch.unopened (h.tape ▸ hz) hx').step_eq hq]
      exact .ended (.some (.unopened ⟨⟨_, hp, hl⟩, rfl⟩)) h
    | @cons x k _ _ hn _ =>
      -- right behind the `[` the first program may have a comment; it is passed later
      obtain ⟨⟨c, hc, hk⟩, rfl⟩ := hn
      rw [(Dispatch.back hz hx).step_eq_going hs hp, (Dispatch.back (h.tape ▸ hz) hx').step_eq_going hs hq,
        ← rank_succ_of_keep hc hk]
      exact .going h.countStep.countStep_right

/-- Both do the same character. -/
theorem active {c : Char} (hs : s.debug = false) (h : m.Follows keep p m') (hp : p[i]? = some c)
    (hk : keep c = true) :
    (step s p (.going i m)).Follows keep p (step s (p.only keep) (.going (p.rank keep i) m')) := by
  rcases char_cases c with rfl | rfl | ⟨c, rfl⟩
  · exact enter hkeep hs h hp
  · exact leave hkeep hs h hp
  · have hq := getElem?_only_rank hp hk
    have hobeys := m.obeys (s := s) (c := c)
    cases ho : m.obey s c with
    | ok m₁ =>
      rw [ho] at hobeys
      obtain ⟨m₁', ho', h₁⟩ := h.obeys hobeys
      rw [(Dispatch.plain ho).step_eq_going hs hp, (Dispatch.plain ho'.obey_eq).step_eq_going hs hq,
        ← rank_succ_of_keep hp hk]
      exact .going h₁
    | error f =>
      rw [ho] at hobeys
      obtain ⟨ho', place, rfl⟩ := h.obeys_error hobeys
      rw [(Dispatch.fault ho).step_eq hp, (Dispatch.fault ho'.obey_eq).step_eq hq]
      exact .ended (.some .overflow) h

/-- The next step of the run of the shorter program is the last of some steps of
the other run. -/
theorem advance (hs : s.debug = false) (h : r.Follows keep p r') :
    ∃ k, (steps s p (k + 1) r).Follows keep p (r'.step s (p.only keep)) ∧
      (trace s p (k + 1) r).filter keep = trace s (p.only keep) 1 r' := by
  cases h with
  | ended hf h => exact ⟨0, .ended hf h, rfl⟩
  | @going i m m' h =>
    -- comments are passed until there is a character that stays, or none
    induction hd : p.size - i generalizing i m with
    | zero =>
      have hp : p[i]? = none := Array.getElem?_eq_none (by omega)
      have hq : (p.only keep)[p.rank keep i]? = none := getElem?_only_rank_of_past hp
      refine ⟨0, ?_, ?_⟩
      · rw [steps_succ, steps_zero, step_past hp, step_past hq]
        exact .ended .none h
      · rw [trace_going, trace_going, trace_zero, trace_zero, hp, hq]
        rfl
    | succ d ih =>
      have hp : p[i]? = some p[i] := Array.getElem?_eq_getElem (by omega)
      cases hk : keep p[i] with
      | true =>
        have hq := getElem?_only_rank hp hk
        refine ⟨0, active hkeep hs h hp hk, ?_⟩
        rw [trace_going, trace_going, trace_zero, trace_zero, hp, hq]
        simp [hk]
      | false =>
        have hc : isCommand p[i] = false := by
          by_contra hc
          rw [hkeep _ (by simpa using hc)] at hk
          cases hk
        obtain ⟨m₁, hstep, h₁⟩ := idle hs h hp hc hk
        obtain ⟨k, hk₁, htrace⟩ := ih (i := i + 1) h₁ (by omega)
        rw [rank_succ_of_drop hp hk] at hk₁ htrace
        refine ⟨k + 1, ?_, ?_⟩
        · rw [steps_succ, hstep]
          exact hk₁
        · rw [trace_going, hstep, hp, List.filter_append, htrace]
          simp [hk]

/-- However far the run of the shorter program is, the other run comes to that
point, and not in fewer steps. -/
theorem steps (hs : s.debug = false) (h : r.Follows keep p r') :
    ∃ k, n ≤ k ∧ (Run.steps s p k r).Follows keep p (r'.steps s (p.only keep) n) ∧
      (trace s p k r).filter keep = trace s (p.only keep) n r' := by
  induction n generalizing r r' with
  | zero => exact ⟨0, Nat.le_refl 0, h, by rw [trace_zero, trace_zero]; rfl⟩
  | succ n ih =>
    obtain ⟨a, ha, htrace⟩ := advance hkeep hs h
    obtain ⟨b, hb, hfollows, htrace'⟩ := ih ha
    refine ⟨a + 1 + b, by omega, ?_, ?_⟩
    · rw [steps_add, steps_succ]
      exact hfollows
    · rw [trace_add, List.filter_append, htrace, htrace', Nat.add_comm n, trace_add]
      rfl

end Run.Follows

/-! ## Whole runs -/

/-- A program and what is left of it run alike. -/
theorem Machine.run_only (hkeep : ∀ c, isCommand c = true → keep c = true) (hs : s.debug = false) :
    (m.run s p = none ∧ m.run s (p.only keep) = none) ∨
    ∃ t e e', m.Ends s p t e ∧ m.Ends s (p.only keep) (t.filter keep) e' ∧
      Option.Rel (Fault.Matches (p.Nth keep)) e.fault e'.fault ∧ e.machine.Follows keep p e'.machine := by
  have hstart : Run.Follows keep p (.going 0 (m.inside [])) (.going 0 (m.inside [])) :=
    .going ⟨rfl, .nil, rfl, rfl, rfl, rfl, rfl, fun _ => rfl⟩
  cases hrun : m.run s p with
  | none =>
    refine .inl ⟨rfl, ?_⟩
    rw [run_eq_none_iff] at hrun ⊢
    intro n f m' hn
    obtain ⟨k, -, hk, -⟩ := hstart.steps (n := n) hkeep hs
    rw [hn] at hk
    generalize hr : steps s p k (.going 0 (m.inside [])) = r at hk
    cases hk
    exact hrun k _ _ hr
  | some e =>
    obtain ⟨n, hn⟩ := run_eq_some_iff.1 hrun
    obtain ⟨k, hle, hk, htrace⟩ := hstart.steps (n := n) hkeep hs
    rw [steps_ended_mono hle hn] at hk
    generalize hr : steps s (p.only keep) n (.going 0 (m.inside [])) = r at hk
    cases hk with
    | ended hf hm =>
      exact .inr ⟨_, e, _, ⟨hrun, k, steps_ended_mono hle hn, rfl⟩, htrace ▸ ends_of_steps hr, hf, hm⟩

/-- Positions of the same command, counted in each program. -/
def Program.Counterpart (p q : Program) (i j : Nat) : Prop :=
  ∃ k, p.Nth isCommand i k ∧ q.Nth isCommand j k

theorem Program.counterparts {l l' l₁ : List Nat} (h : List.Forall₂ (p.Nth isCommand) l l₁)
    (h' : List.Forall₂ (q.Nth isCommand) l' l₁) : List.Forall₂ (p.Counterpart q) l l' := by
  induction h generalizing l' with
  | nil =>
    cases h'
    exact .nil
  | cons hx _ ih =>
    cases h' with
    | cons hy h' => exact .cons ⟨_, hx, hy⟩ (ih h')

theorem Fault.Matches.counterpart {f f' f₁ : Fault} (h : f.Matches (p.Nth isCommand) f₁)
    (h' : f'.Matches (q.Nth isCommand) f₁) : f.Matches (p.Counterpart q) f' := by
  cases h with
  | overflow =>
    cases h'
    exact .overflow
  | unclosed hx =>
    cases h' with
    | unclosed hy => exact .unclosed ⟨_, hx, hy⟩
  | unopened hx =>
    cases h' with
    | unopened hy => exact .unopened ⟨_, hx, hy⟩

theorem Fault.counterparts {f f' f₁ : Option Fault} (h : Option.Rel (Matches (p.Nth isCommand)) f f₁)
    (h' : Option.Rel (Matches (q.Nth isCommand)) f' f₁) :
    Option.Rel (Matches (p.Counterpart q)) f f' := by
  cases h with
  | none =>
    cases h'
    exact .none
  | some h =>
    cases h' with
    | some h' => exact .some (h.counterpart h')

/-- Two programs with the same marks leave the same transcript. -/
theorem Machine.log_eq_of_marks {t t' : List Char} {e e' : Ending} (hs : s.debug = false)
    (hpq : p.only isMark = q.only isMark) (h : m.Ends s p t e) (h' : m.Ends s q t' e') :
    e.machine.log = e'.machine.log := by
  have hkeep (c : Char) (hc : isCommand c = true) : isMark c = true := by simp [isMark, hc]
  rcases run_only (p := p) (m := m) hkeep hs with ⟨hn, -⟩ | ⟨_, e₁, e₂, h₁, h₂, -, hf⟩
  · rw [h.run] at hn
    cases hn
  · rcases run_only (p := q) (m := m) hkeep hs with ⟨hn, -⟩ | ⟨_, e₃, e₄, h₃, h₄, -, hf'⟩
    · rw [h'.run] at hn
      cases hn
    · obtain ⟨-, rfl⟩ := h.unique h₁
      obtain ⟨-, rfl⟩ := h'.unique h₃
      rw [hpq] at h₂
      obtain ⟨-, rfl⟩ := h₂.unique h₄
      rw [hf.exact rfl, hf'.exact rfl]

/-- The steps of a run are the commands and the comments that it does. -/
theorem Machine.Ends.steps_eq {t : List Char} {e : Ending} (h : m.Ends s p t e) (hs : s.debug = false) :
    e.machine.tally.steps + (if e.fault.isSome then 1 else 0) =
      m.tally.steps + ((t.filter isCommand).length + t.countP (!isCommand ·)) := by
  rw [(h.accounts hs).2, List.length_eq_countP_add_countP isCommand, List.countP_eq_length_filter]
  simp only [Bool.not_eq_true, Bool.decide_eq_false]

/-- Only the commands of a program matter. Two programs with the same commands
in the same order run both for ever, or both to an end of the same kind,
after the same commands. They leave the same tape, take the same from the
input, write and count the same, but for the steps that comments are; the
loops they are in and the positions of their faults are those of the same
commands. What they print differs in reports at most, and not at all if the
`#` stand between the same commands, too. -/
theorem run_depends_on_commands (hs : s.debug = false) (hpq : p.only isCommand = q.only isCommand) :
    (m.run s p = none ∧ m.run s q = none) ∨
    ∃ t t' e e', m.Ends s p t e ∧ m.Ends s q t' e' ∧ t.filter isCommand = t'.filter isCommand ∧
      Option.Rel (Fault.Matches (p.Counterpart q)) e.fault e'.fault ∧
      e.machine.tape = e'.machine.tape ∧ e.machine.unread = e'.machine.unread ∧
      e.machine.tally.reads = e'.machine.tally.reads ∧ e.machine.tally.readErrors = e'.machine.tally.readErrors ∧
      e.machine.tally.writes = e'.machine.tally.writes ∧
      List.Forall₂ (p.Counterpart q) e.machine.loops e'.machine.loops ∧
      (e.machine.tally.steps - t.countP (!isCommand ·) : Int) =
        e'.machine.tally.steps - t'.countP (!isCommand ·) ∧
      ∃ u u', e.machine.log = u ++ m.log ∧ e'.machine.log = u' ++ m.log ∧
        u.textOn .output = u'.textOn .output ∧ u.unreported = u'.unreported ∧
        (p.only isMark = q.only isMark → u = u') := by
  have hkeep (c : Char) (hc : isCommand c = true) : isCommand c = true := hc
  rcases run_only (p := p) (m := m) hkeep hs with ⟨hp, hp'⟩ | ⟨t, e, e₁, hp, hp', hfault, hf⟩
  · rcases run_only (p := q) (m := m) hkeep hs with ⟨hq, -⟩ | ⟨_, _, _, -, hq, -, -⟩
    · exact .inl ⟨hp, hq⟩
    · rw [hpq, hq.run] at hp'
      cases hp'
  · rcases run_only (p := q) (m := m) hkeep hs with ⟨-, hq⟩ | ⟨t', e', e₂, hq, hq', hfault', hf'⟩
    · rw [← hpq, hp'.run] at hq
      cases hq
    · rw [hpq] at hp'
      obtain ⟨htrace, rfl⟩ := hp'.unique hq'
      have hrel : Option.Rel (Fault.Matches (p.Counterpart q)) e.fault e'.fault := Fault.counterparts hfault hfault'
      refine .inr ⟨t, t', e, e', hp, hq, htrace, hrel, hf.tape.trans hf'.tape.symm, hf.unread.trans hf'.unread.symm,
        hf.reads.trans hf'.reads.symm, hf.readErrors.trans hf'.readErrors.symm, hf.writes.trans hf'.writes.symm,
        counterparts hf.loops hf'.loops, ?_, ?_⟩
      · have hcount := hp.steps_eq hs
        have hcount' := hq.steps_eq hs
        have hsome : e.fault.isSome = e'.fault.isSome := by
          generalize e.fault = f, e'.fault = f' at hrel
          cases hrel <;> rfl
        rw [htrace, hsome] at hcount
        omega
      · obtain ⟨u, hu⟩ := exists_log_of_run hp.run
        obtain ⟨u', hu'⟩ := exists_log_of_run hq.run
        have hlog : u.unreported = u'.unreported := by
          have := hf.log.trans hf'.log.symm
          rw [hu, hu', Transcript.unreported_append, Transcript.unreported_append] at this
          exact List.append_cancel_right this
        refine ⟨u, u', hu, hu', Transcript.textOn_output_eq_of_unreported_eq hlog, hlog, fun hmarks => ?_⟩
        have := log_eq_of_marks hs hmarks hp hq
        rw [hu, hu'] at this
        exact List.append_cancel_right this

/-- Of `+ #]` and `+]` both end at a `]` in no loop, the same one. -/
theorem comments_move_fault :
    ∃ e e', (Machine.start (.blank 1 (by decide)) []).run {} #['+', ' ', '#', ']'] = some e ∧
      (Machine.start (.blank 1 (by decide)) []).run {} #['+', ']'] = some e' ∧
      e.fault = some (.unopened 3) ∧ e'.fault = some (.unopened 1) ∧
      Option.Rel (Fault.Matches (Program.Counterpart #['+', ' ', '#', ']'] #['+', ']'])) e.fault e'.fault ∧
      e.machine.tally.steps = 3 ∧ e'.machine.tally.steps = 1 ∧ e.machine.tape = e'.machine.tape := by
  have hp := ends_of_steps (s := {}) (p := #['+', ' ', '#', ']']) (n := 4) (f := some (.unopened 3))
    (m := .start (.blank 1 (by decide)) []) rfl
  have hq := ends_of_steps (s := {}) (p := #['+', ']']) (n := 2) (f := some (.unopened 1))
    (m := .start (.blank 1 (by decide)) []) rfl
  rcases run_depends_on_commands (s := {}) (m := .start (.blank 1 (by decide)) []) (p := #['+', ' ', '#', ']'])
    (q := #['+', ']']) rfl (by decide) with ⟨hn, -⟩ | ⟨t, t', e, e', he, he', -, hfault, htape, -⟩
  · rw [hp.run] at hn
    cases hn
  · obtain ⟨-, rfl⟩ := he.unique hp
    obtain ⟨-, rfl⟩ := he'.unique hq
    exact ⟨_, _, he.run, he'.run, rfl, rfl, hfault, rfl, rfl, htape⟩

end TapeMachine
