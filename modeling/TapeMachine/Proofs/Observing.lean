/-
Observed runs. A debugged run whose pauses are only observed goes through the
states of the plain run, one by one (`Machine.shown_of_going`), and what it
has to say between two steps is a `Passage`: which character was done, which
is next, and the machine that the one has left and the other finds. A whole
run tells these passages and nothing else, one for each step that another one
follows (`debug_trace_complete`).

The plain run is the measure, because a run that its observer breaks off
never does the character that it has announced.
-/
import TapeMachine.Proofs.Debugging
import TapeMachine.Proofs.Trace

namespace TapeMachine

open Machine Run Program

variable {s : Setup} {p : Program} {i j k : Nat} {m m' m₁ : Machine} {t : Transcript} {limit : Option Nat}

namespace Transcript

/-- The reports between steps, in order: the character done, the one that is
next, and the state between them. -/
def reports (t : Transcript) : List (Char × Char × Report) :=
  t.reverse.filterMap fun
    | .step current next r => some (current, next, r)
    | _ => none

/-- What these reports print, and where. -/
def reportsPrinted (t : Transcript) : List (Channel × String) :=
  t.reverse.filterMap fun
    | .step current next r => (Event.step current next r).printed
    | _ => none

theorem reports_append {t u : Transcript} : reports (t ++ u) = reports u ++ reports t := by simp [reports]

theorem reportsPrinted_append {t u : Transcript} :
    reportsPrinted (t ++ u) = reportsPrinted u ++ reportsPrinted t := by
  simp [reportsPrinted]

/-- Only reports print as reports do. -/
theorem reportsPrinted_eq_nil {t : Transcript} (h : t.reports = []) : t.reportsPrinted = [] := by
  rw [reports, List.filterMap_eq_nil_iff] at h
  rw [reportsPrinted, List.filterMap_eq_nil_iff]
  intro e he
  cases e with
  | step c d r => exact absurd (h _ he) nofun
  | _ => rfl

theorem observations_append {t u : Transcript} : observations (t ++ u) = observations u ++ observations t := by
  simp [observations]

end Transcript

/-! ## Steps -/

namespace Machine

/-- The machine with another record of what it did, and another count of its
pauses. -/
def noting (m : Machine) (q : Nat) (l : Transcript) : Machine := { m with pauses := q, log := l }

/-- What a character that is no bracket does of itself is noted neither as a
report nor as an observation, and is the same whatever was noted before. -/
theorem obey_noting {c : Plain} (h : m.obey s c = .ok m₁) :
    m₁.pauses = m.pauses ∧ ∃ own : Transcript, m₁.log = own ++ m.log ∧ own.reports = [] ∧ own.observations = [] ∧
      ∀ q l, (m.noting q l).obey s.undebugged c = .ok (m₁.noting q (own ++ l)) := by
  have hplain (m : Machine) : m.obey s.undebugged c = m.obey s c := rfl
  rw [obey_eq] at h
  cases hd : (start m.tape m.unread).obey s c with
  | error f =>
    rw [hd] at h
    cases h
  | ok d =>
    rw [hd] at h
    cases h
    have hown : d.log.reports = [] ∧ d.log.observations = [] := by
      have ho := (start m.tape m.unread).obeys (s := s) (c := c)
      rw [hd] at ho
      generalize Command.ofChar? c.1 = cmd at ho
      cases ho with
      | get => cases hu : m.unread <;> simp [countStep, readItem, start, Transcript.reports, Transcript.observations]
      | comment | right | left | increment | decrement | put | report => exact ⟨rfl, rfl⟩
    refine ⟨rfl, d.log, rfl, hown.1, hown.2, fun q l => ?_⟩
    rw [hplain, obey_eq]
    change ((start m.tape m.unread).obey s c).map (m.noting q l).after = _
    rw [hd]
    rfl

end Machine

theorem Dispatch.noting {c : Char} (hd : Dispatch s p i m c (.ok (j, m₁))) :
    m₁.pauses = m.pauses ∧ ∃ own : Transcript, m₁.log = own ++ m.log ∧ own.reports = [] ∧ own.observations = [] ∧
      ∀ q l, Dispatch s.undebugged p i (m.noting q l) c (.ok (j, m₁.noting q (own ++ l))) := by
  cases hd with
  | plain ho =>
    obtain ⟨hpauses, own, hlog, hr, hob, hn⟩ := Machine.obey_noting ho
    exact ⟨hpauses, own, hlog, hr, hob, fun q l => .plain (hn q l)⟩
  | enter hz => exact ⟨rfl, [], rfl, rfl, rfl, fun _ _ => .enter hz⟩
  | skip hz hp => exact ⟨rfl, [], rfl, rfl, rfl, fun _ _ => .skip hz hp⟩
  | leave hz => exact ⟨rfl, [], rfl, rfl, rfl, fun _ _ => .leave hz⟩
  | back hz hl => exact ⟨rfl, [], rfl, rfl, rfl, fun _ _ => .back hz hl⟩

theorem Dispatch.noting_error {c : Char} {f : Fault} (hd : Dispatch s p i m c (.error f)) (q : Nat)
    (l : Transcript) : Dispatch s.undebugged p i (m.noting q l) c (.error f) := by
  cases hd with
  | @fault c _ ho =>
    refine .fault ?_
    rw [Machine.obey_eq] at ho ⊢
    cases hd : (start m.tape m.unread).obey s c with
    | error g =>
      rw [hd] at ho
      cases ho
      change ((start m.tape m.unread).obey s c).map (m.noting q l).after = _
      rw [hd]
      rfl
    | ok d =>
      rw [hd] at ho
      cases ho
  | unclosed hz hp => exact .unclosed hz hp
  | unopened hz hl => exact .unopened hz hl

/-! ## Pauses -/

/-- Between two steps: the character done, the one that is next, and the
machine as the observer sees it. -/
structure Passage where
  current : Char
  next : Char
  seen : Snapshot

namespace Passage

/-- The cells around the head, if so many of them are asked for. -/
def view? (range : Option Nat) (x : Passage) : Option View := range.map x.seen.tape.view

def told (range : Option Nat) (x : Passage) : Char × Char × Report :=
  (x.current, x.next, ⟨x.seen.head, x.seen.value, x.view? range⟩)

/-- What is printed of it. -/
def text (range : Option Nat) (x : Passage) : String :=
  "\nCurrent: " ++ x.current.toString ++ ", next: " ++ x.next.toString ++ "\n" ++
    "Ptr: " ++ Nat.repr x.seen.head ++ ", value: " ++ Nat.repr x.seen.value.toNat ++ "\n" ++
      (x.view? range).elim "" fun v =>
        Report.memoryLine v ++ "\n" ++ Report.pointerLine x.seen.head v ++ "\n" ++ Report.addressLine v ++ "\n"

/-- What an observed run notes of it. -/
def log (range : Option Nat) (x : Passage) : Transcript :=
  [.observed x.seen, .step x.current x.next ⟨x.seen.head, x.seen.value, x.view? range⟩]

/-- A reading of transcripts that tells one thing of every passage, and nothing
of what a step notes of itself. -/
structure Reading {α : Type} (range : Option Nat) (read : Transcript → List α) (tell : Passage → α) : Prop where
  append : ∀ t u, read (t ++ u) = read u ++ read t
  own : ∀ own : Transcript, own.reports = [] → own.observations = [] → read own = []
  log : ∀ x : Passage, read (x.log range) = [tell x]

variable {range : Option Nat}

theorem reading_reports : Reading range Transcript.reports (told range) :=
  ⟨fun _ _ => Transcript.reports_append, fun _ h _ => h, fun _ => rfl⟩

theorem reading_observations : Reading range Transcript.observations seen :=
  ⟨fun _ _ => Transcript.observations_append, fun _ _ h => h, fun _ => rfl⟩

theorem printed_step {x : Passage} :
    (Event.step x.current x.next ⟨x.seen.head, x.seen.value, x.view? range⟩).printed = some (.diagnostics, x.text range) := by
  refine congrArg (fun text => some (Channel.diagnostics, text)) ?_
  rw [Report.text_eq]
  unfold Report.headLine text
  simp only [String.append_assoc]

theorem reading_reportsPrinted : Reading range Transcript.reportsPrinted fun x => (.diagnostics, x.text range) where
  append _ _ := Transcript.reportsPrinted_append
  own _ h _ := Transcript.reportsPrinted_eq_nil h
  log _ := List.filterMap_cons_some printed_step

end Passage

/-- What is between the character `c`, which has led to this machine, and the
next. -/
def Machine.between (c d : Char) (m : Machine) : Passage := ⟨c, d, ⟨m.tape, m.loops.reverse, m.tally.steps⟩⟩

/-- After a step that another one follows, the report and what the observer sees
are noted, and the run goes on unless the observer has had enough. -/
theorem Run.afterStep_observed {c d : Char} (hs : s.debug = true) (hp : s.pause = .observe limit) (hj : p[j]? = some d) :
    ∃ q, limit = some (m.pauses + 1) ∧
        afterStep s p c j m = .ended (some .interrupted) (m.noting q ((m.between c d).log s.view ++ m.log)) ∨
      limit ≠ some (m.pauses + 1) ∧ (limit.isSome → q = m.pauses + 1) ∧
        afterStep s p c j m = .going j (m.noting q ((m.between c d).log s.view ++ m.log)) := by
  unfold afterStep Machine.pause
  rw [if_pos hs, hj, hp]
  cases limit with
  | none => exact ⟨m.pauses, .inr ⟨by simp, by simp, rfl⟩⟩
  | some limit =>
    dsimp only [note]
    split
    · next h =>
      split at h
      · cases h
      · next hl =>
        cases h
        exact ⟨m.pauses + 1, .inr ⟨fun he => hl (Option.some.inj he).symm, fun _ => rfl, rfl⟩⟩
    · next h =>
      split at h
      · next hl =>
        cases h
        exact ⟨0, .inl ⟨congrArg some hl.symm, rfl⟩⟩
      · cases h

theorem Run.afterStep_past {c : Char} (hj : p[j]? = none) : afterStep s p c j m = .going j m := by
  unfold afterStep
  rw [hj]
  exact ite_self _

/-- Either way the machine has noted what is between its steps, if another one
follows. -/
theorem Run.exists_noting_of_afterStep {c : Char} (hs : s.debug = true) (hp : s.pause = .observe limit) :
    ∃ q, (afterStep s p c j m).machine = m.noting q ((p[j]?.map (m.between c)).elim [] (Passage.log s.view) ++ m.log) := by
  cases hj : p[j]? with
  | none => exact ⟨m.pauses, by rw [afterStep_past hj]; rfl⟩
  | some d =>
    obtain ⟨q, ⟨-, he⟩ | ⟨-, -, he⟩⟩ := afterStep_observed (m := m) (c := c) hs hp hj
    · exact ⟨q, by rw [he]; rfl⟩
    · exact ⟨q, by rw [he]; rfl⟩

/-! ## Walks -/

/-- The character that a run is about to do. -/
def Run.next? (p : Program) : Run → Option Char
  | .going i _ => p[i]?
  | .ended _ _ => none

namespace Machine

/-- The run of a program, `k` steps on. -/
def walk (s : Setup) (p : Program) (m : Machine) (k : Nat) : Run := steps s p k (.going 0 (m.inside []))

theorem walk_succ : m.walk s p (k + 1) = step s p (m.walk s p k) := steps_add

/-- What is between the steps that a walk does next and after that. -/
def passage (s : Setup) (p : Program) (m : Machine) (k : Nat) : Option Passage :=
  ((m.walk s p k).next? p).bind fun c =>
    ((m.walk s p (k + 1)).next? p).map ((m.walk s p (k + 1)).machine.between c)

/-- A step of an observed run does the character that the plain run does, and
leads where that leads. It notes its `own` events as the plain one does, and
after them what is to be told before the next step. -/
structure Shown (s : Setup) (p : Program) (m : Machine) (k : Nat) (own : Transcript) : Prop where
  next : ∃ c, (m.walk s p k).next? p = some c ∧ (m.walk s.undebugged p k).next? p = some c
  plain : ∃ i, m.walk s.undebugged p (k + 1) =
    .going i ((m.walk s p (k + 1)).machine.noting m.pauses (own ++ (m.walk s.undebugged p k).machine.log))
  log : (m.walk s p (k + 1)).machine.log =
    (m.passage s.undebugged p k).elim [] (Passage.log s.view) ++ (own ++ (m.walk s p k).machine.log)
  reports : own.reports = []
  observations : own.observations = []

theorem exists_last_of_run {e : Ending} (h : m.run s p = some e) :
    ∃ k i m', m.walk s p k = .going i m' ∧ step s p (.going i m') = .ended e.fault e.machine := by
  obtain ⟨n, hn⟩ := exists_steps_of_run h
  exact exists_last_step hn

/-- A walk that has come a step further. -/
theorem going_succ_cases (h : m.walk s p (k + 1) = .going j m') :
    ∃ i m₁ c m₂, m.walk s p k = .going i m₁ ∧ p[i]? = some c ∧ Dispatch s p i m₁ c (.ok (j, m₂)) ∧
      afterStep s p c j m₂ = .going j m' := by
  rw [walk_succ] at h
  cases hr : m.walk s p k with
  | ended f m₁ =>
    rw [hr] at h
    cases h
  | going i m₁ =>
    rw [hr] at h
    obtain ⟨c, m₂, hc, hd, -, ha⟩ := exists_dispatch_of_going h
    exact ⟨i, m₁, c, m₂, rfl, hc, hd, ha⟩

/-- One step of an observed run and of the plain run with it. -/
theorem exists_shown {l : Transcript} {c : Char} (hs : s.debug = true) (hp : s.pause = .observe limit)
    (hseen : m.walk s p k = .going i m') (hplain : m.walk s.undebugged p k = .going i (m'.noting m.pauses l))
    (hc : p[i]? = some c) (hd : Dispatch s p i m' c (.ok (j, m₁))) :
    ∃ own, m.Shown s p k own ∧
      m.walk s.undebugged p (k + 1) = .going j ((m.walk s p (k + 1)).machine.noting m.pauses (own ++ l)) := by
  obtain ⟨-, own, hlog, hr, ho, hn⟩ := hd.noting
  have hnext : ∃ c, (m.walk s p k).next? p = some c ∧ (m.walk s.undebugged p k).next? p = some c :=
    ⟨c, by rw [hseen, next?, hc], by rw [hplain, next?, hc]⟩
  have hplain' : m.walk s.undebugged p (k + 1) = .going j (m₁.noting m.pauses (own ++ l)) := by
    rw [walk_succ, hplain]
    exact (hn m.pauses l).step_eq_going rfl hc
  have hpassage : m.passage s.undebugged p k = p[j]?.map (m₁.between c) := by
    rw [passage, hplain, hplain', next?, hc]
    rfl
  obtain ⟨q, hq⟩ := exists_noting_of_afterStep (p := p) (j := j) (m := m₁) (c := c) hs hp
  have hseen' : (m.walk s p (k + 1)).machine = m₁.noting q ((p[j]?.map (m₁.between c)).elim [] (Passage.log s.view) ++ m₁.log) := by
    rw [walk_succ, hseen, hd.step_eq hc]
    exact hq
  have hstep : m.walk s.undebugged p (k + 1) =
      .going j ((m.walk s p (k + 1)).machine.noting m.pauses (own ++ l)) := by
    rw [hplain', hseen']
    rfl
  refine ⟨own, ⟨hnext, ⟨j, ?_⟩, ?_, hr, ho⟩, hstep⟩
  · rw [hstep, hplain]
    rfl
  · rw [hseen', hseen, hpassage]
    exact congrArg (Option.elim _ [] (Passage.log s.view) ++ ·) hlog

/-- As far as an observed run goes on, every step of it is shown. -/
theorem shown_of_going (hs : s.debug = true) (hp : s.pause = .observe limit) (h : m.walk s p k = .going i m') :
    (∃ l, m.walk s.undebugged p k = .going i (m'.noting m.pauses l)) ∧
      ∀ j < k, ∃ own, m.Shown s p j own := by
  induction k generalizing i m' with
  | zero =>
    cases h
    exact ⟨⟨m.log, rfl⟩, fun j hj => absurd hj (Nat.not_lt_zero j)⟩
  | succ k ih =>
    obtain ⟨i₁, m₁, c, m₂, hk, hc, hd, ha⟩ := going_succ_cases h
    obtain ⟨⟨l, hl⟩, hall⟩ := ih hk
    obtain ⟨own, hown, hstep⟩ := exists_shown hs hp hk hl hc hd
    rw [h] at hstep
    exact ⟨⟨own ++ l, hstep⟩, Nat.forall_lt_succ_right.2 ⟨hall, own, hown⟩⟩

/-- A run that stands inside its program has been paused after every step, and
was allowed to go on. -/
theorem pauses_of_going (hs : s.debug = true) (hp : s.pause = .observe limit) (h : m.walk s p k = .going i m')
    (hi : p[i]?.isSome) :
    (limit.isSome → m'.pauses = m.pauses + k) ∧ ∀ j, 0 < j → j ≤ k → limit ≠ some (m.pauses + j) := by
  induction k generalizing i m' with
  | zero =>
    cases h
    exact ⟨fun _ => rfl, fun j hj hk => absurd hj (Nat.not_lt.2 hk)⟩
  | succ k ih =>
    obtain ⟨i₁, m₁, c, m₂, hk, hc, hd, ha⟩ := going_succ_cases h
    obtain ⟨d, hi⟩ := Option.isSome_iff_exists.1 hi
    obtain ⟨hpauses, hbefore⟩ := ih hk (by rw [hc]; rfl)
    have hm₂ (hl : limit.isSome) : m₂.pauses = m.pauses + k := hd.noting.1.trans (hpauses hl)
    obtain ⟨q, ⟨-, he⟩ | ⟨hne, hq, he⟩⟩ := afterStep_observed (m := m₂) (c := c) hs hp hi
    · cases ha.symm.trans he
    · cases ha.symm.trans he
      refine ⟨fun hl => (hq hl).trans (congrArg (· + 1) (hm₂ hl)), fun j hj hjk hx => ?_⟩
      rcases Nat.le_succ_iff.1 hjk with hjk | rfl
      · exact hbefore j hj hjk hx
      · refine hne ?_
        rw [hm₂ (by rw [hx]; rfl)]
        exact hx

/-- What a shown run has noted tells its passages, in order. -/
theorem exists_told (h : ∀ j < k, ∃ own, m.Shown s p j own) :
    ∃ t : Transcript, (m.walk s p k).machine.log = t ++ m.log ∧
      ∀ {α : Type} {read : Transcript → List α} {tell : Passage → α}, Passage.Reading s.view read tell →
        read t = (List.range k).filterMap fun j => (m.passage s.undebugged p j).map tell := by
  induction k with
  | zero => exact ⟨[], rfl, fun hread => hread.own [] rfl rfl⟩
  | succ k ih =>
    obtain ⟨t, ht, hr⟩ := ih fun j hj => h j (Nat.lt_succ_of_lt hj)
    obtain ⟨own, hown⟩ := h k (Nat.lt_succ_self k)
    refine ⟨_, by rw [hown.log, ht, ← List.append_assoc, ← List.append_assoc], fun hread => ?_⟩
    rw [List.append_assoc, hread.append, hread.append, hr hread, hread.own own hown.reports hown.observations,
      List.append_nil, List.range_succ, List.filterMap_append]
    congr 1
    cases hx : m.passage s.undebugged p k with
    | none => simp [hx, hread.own [] rfl rfl]
    | some x => simp [hx, hread.log x]

theorem Shown.counted {own : Transcript} (h : m.Shown s p k own) :
    (m.walk s p (k + 1)).machine.tally.steps = m.tally.steps + (k + 1) := by
  obtain ⟨i, hi⟩ := h.plain
  have hcount := counted_of_going (m := m.inside []) hi
  exact hcount

/-- There is a passage after every step that a step follows. -/
theorem passages_eq {α : Type} {g : Passage → α} {n : Nat} (h : ∀ j < k, ∃ own, m.Shown s p j own)
    (hk : k = n ∧ ((m.walk s.undebugged p k).next? p).isSome ∨ k = n + 1 ∧ (m.walk s.undebugged p k).next? p = none) :
    ((List.range k).filterMap fun j => (m.passage s.undebugged p j).map g).map some =
      (List.range n).map fun j => (m.passage s.undebugged p j).map g := by
  have hbegun (j : Nat) (hj : j < k) : ((m.walk s.undebugged p j).next? p).isSome := by
    obtain ⟨own, hown⟩ := h j hj
    obtain ⟨c, -, hc⟩ := hown.next
    rw [hc]
    rfl
  have hnext : ∀ j ≤ n, ((m.walk s.undebugged p j).next? p).isSome := by
    intro j hj
    rcases hk with ⟨rfl, hlast⟩ | ⟨rfl, -⟩
    · rcases Nat.lt_or_eq_of_le hj with hj | rfl
      · exact hbegun j hj
      · exact hlast
    · exact hbegun j (Nat.lt_succ_of_le hj)
  have hsome : ∀ x ∈ (List.range n).map fun j => (m.passage s.undebugged p j).map g, x.isSome := by
    intro x hx
    obtain ⟨j, hj, rfl⟩ := List.mem_map.1 hx
    rw [List.mem_range] at hj
    obtain ⟨c, hc⟩ := Option.isSome_iff_exists.1 (hnext j (Nat.le_of_lt hj))
    obtain ⟨d, hd⟩ := Option.isSome_iff_exists.1 (hnext (j + 1) hj)
    rw [passage, hc, hd]
    rfl
  rw [List.map_filterMap_some_eq_filter_map_isSome]
  rcases hk with ⟨rfl, -⟩ | ⟨rfl, hlast⟩
  · exact List.filter_eq_self.2 hsome
  · have hnone : (m.passage s.undebugged p n).map g = none := by
      rw [passage, hlast]
      cases (m.walk s.undebugged p n).next? p <;> rfl
    rw [List.range_succ, List.map_append, List.filter_append, List.filter_eq_self.2 hsome, List.map_singleton, hnone]
    exact List.append_nil _

/-- The run ended so after `k` steps and `n` pauses, and noted `t` from its
beginning. -/
structure Recounted (s : Setup) (p : Program) (m : Machine) (e : Ending) (k n : Nat) (t : Transcript) : Prop where
  machine : e.machine = (m.walk s p k).machine
  log : e.machine.log = t ++ m.log
  steps : ∀ j ≤ k, (m.walk s p j).machine.tally.steps = m.tally.steps + j
  /-- Nothing follows the last step of a complete run. -/
  complete : e.fault = none → k = n + 1
  broken : e.fault ≠ none → k = n
  reports : t.reports.map some = (List.range n).map fun j => (m.passage s.undebugged p j).map (Passage.told s.view)
  printed : t.reportsPrinted.map some =
    (List.range n).map fun j => (m.passage s.undebugged p j).map fun x => (.diagnostics, x.text s.view)
  observations : t.observations.map some = (List.range n).map fun j => (m.passage s.undebugged p j).map Passage.seen
  shown : ∀ j < k, ∃ own, m.Shown s p j own
  /-- The plain run ends at the same character, unless the run was broken off. -/
  ending : e.fault ≠ some .interrupted → (m.walk s p k).next? p = (m.walk s.undebugged p k).next? p ∧
    ∃ l, m.walk s.undebugged p (k + 1) = .ended e.fault (e.machine.noting m.pauses l)

theorem recounted_of_shown {n : Nat} {e : Ending} (hm : e.machine = (m.walk s p k).machine)
    (h : ∀ j < k, ∃ own, m.Shown s p j own)
    (hk : e.fault ≠ none ∧ k = n ∧ ((m.walk s.undebugged p k).next? p).isSome ∨
      e.fault = none ∧ k = n + 1 ∧ (m.walk s.undebugged p k).next? p = none)
    (hend : e.fault ≠ some .interrupted → (m.walk s p k).next? p = (m.walk s.undebugged p k).next? p ∧
      ∃ l, m.walk s.undebugged p (k + 1) = .ended e.fault (e.machine.noting m.pauses l)) :
    ∃ t, m.Recounted s p e k n t := by
  obtain ⟨t, ht, hr⟩ := exists_told h
  have htold {α : Type} {read : Transcript → List α} {tell : Passage → α} (hread : Passage.Reading s.view read tell) :
      (read t).map some = (List.range n).map fun j => (m.passage s.undebugged p j).map tell := by
    rw [hr hread]
    exact passages_eq h (hk.imp And.right And.right)
  refine ⟨t, hm, hm ▸ ht, ?_, ?_, ?_, htold Passage.reading_reports, htold Passage.reading_reportsPrinted,
    htold Passage.reading_observations, h, hend⟩
  · intro j hj
    cases j with
    | zero => rfl
    | succ j =>
      obtain ⟨own, hown⟩ := h j hj
      exact hown.counted
  · intro hf
    rcases hk with ⟨hne, -⟩ | ⟨-, hk, -⟩
    · exact absurd hf hne
    · exact hk
  · intro hf
    rcases hk with ⟨-, hk, -⟩ | ⟨hn, -⟩
    · exact hk
    · exact absurd hn hf

end Machine

/-- The trace of a debugged run is complete and accurate. A run that ends after
`k` characters has stopped after each of them that another one follows: `n`
times, which is `k` in a run that fails at the next character or is broken
off, and one less in a complete run. Every stop reports what the plain run
does there, and is seen by the observer, before the next character is done.
The observer breaks off at the stop where it has had enough, which is then
the last thing that the run has done, and at no other. -/
theorem debug_trace_complete (hs : s.debug = true) (hp : s.pause = .observe limit) (hne : 0 < p.size)
    {e : Ending} (h : m.run s p = some e) :
    ∃ k n t, m.Recounted s p e k n t ∧ (e.fault = some .interrupted → limit = some (m.pauses + k)) ∧
      ∀ j, 0 < j → j ≤ n → limit = some (m.pauses + j) → e.fault = some .interrupted ∧ j = k := by
  obtain ⟨k, i, m₁, hk, hlast⟩ := exists_last_of_run h
  obtain ⟨⟨l, hplain⟩, hshown⟩ := shown_of_going hs hp hk
  rcases ended_cases hlast with ⟨hf, hpast, hm⟩ | ⟨c, f, hf, hc, hd, hm⟩ | ⟨c, j, m₂, hf, hc, hd, -, hj, -, hpause⟩
  · -- the program has a character, so the end was not found at once
    cases k with
    | zero =>
      cases hk
      rw [Array.getElem?_eq_none_iff] at hpast
      exact absurd hne (Nat.not_lt.2 hpast)
    | succ n =>
      obtain ⟨i₁, m₂, c, -, hn, hc, -⟩ := going_succ_cases hk
      have hend : m.walk s.undebugged p (n + 1 + 1) = .ended e.fault (e.machine.noting m.pauses l) := by
        rw [walk_succ, hplain, step_past hpast, hf, hm]
      obtain ⟨t, ht⟩ := recounted_of_shown (by rw [hm, hk]; rfl) hshown (.inr ⟨hf, rfl, by rw [hplain]; exact hpast⟩)
        fun _ => ⟨by rw [hk, hplain]; rfl, l, hend⟩
      refine ⟨n + 1, n, t, ht, ?_, fun j hj hjn hl => ?_⟩
      · rw [hf]
        nofun
      · exact absurd hl ((pauses_of_going hs hp hn (by rw [hc]; rfl)).2 j hj hjn)
  · have hend : m.walk s.undebugged p (k + 1) = .ended e.fault (e.machine.noting m.pauses l) := by
      rw [walk_succ, hplain, (hd.noting_error m.pauses l).step_eq hc, hf, hm]
      rfl
    obtain ⟨t, ht⟩ := recounted_of_shown (by rw [hm, hk]; rfl) hshown
      (.inl ⟨by rw [hf]; nofun, rfl, by rw [hplain, next?, hc]; rfl⟩) fun _ => ⟨by rw [hk, hplain]; rfl, l, hend⟩
    have hlimit := (pauses_of_going hs hp hk (by rw [hc]; rfl)).2
    refine ⟨k, k, t, ht, fun hi => ?_, fun j hj hjk hl => absurd hl (hlimit j hj hjk)⟩
    exact absurd (Option.some.inj (hf.symm.trans hi)) hd.ne_interrupted
  · obtain ⟨own, hown, hnext⟩ := exists_shown hs hp hk hplain hc hd
    have hshown' : ∀ x < k + 1, ∃ own, m.Shown s p x own := Nat.forall_lt_succ_right.2 ⟨hshown, own, hown⟩
    have hm : e.machine = (m.walk s p (k + 1)).machine := by
      rw [walk_succ, hk, hlast]
      rfl
    have hsize : ((m.walk s.undebugged p (k + 1)).next? p).isSome := by
      rw [hnext, next?, Array.getElem?_eq_getElem hj]
      rfl
    obtain ⟨t, ht⟩ := recounted_of_shown hm hshown' (.inl ⟨by rw [hf]; nofun, rfl, hsize⟩) fun hi => absurd hf hi
    obtain ⟨hcount, -⟩ := pauses_of_going hs hp hk (by rw [hc]; rfl)
    have hl : limit = some (m₂.pauses + 1) := Pause.observe.inj (hp.symm.trans hpause)
    rw [hd.noting.1, hcount (by rw [hl]; rfl)] at hl
    refine ⟨k + 1, k + 1, t, ht, fun _ => hl, fun x hx hxk hxl => ⟨hf, ?_⟩⟩
    rw [hl] at hxl
    exact (Nat.add_left_cancel (Option.some.inj hxl)).symm

/-- An observer that has enough at its third pause leaves `>+[-]` inside its
loop, with the `-` to come, after three reports of the second cell. -/
theorem third_pause_breaks_run :
    ∃ e t, (Machine.start (.blank 2 (by decide)) []).run { debug := true, pause := .observe (some 3) }
        #['>', '+', '[', '-', ']'] = some e ∧
      (Machine.start (.blank 2 (by decide)) []).Recounted { debug := true, pause := .observe (some 3) }
        #['>', '+', '[', '-', ']'] e 3 3 t ∧
      e.fault = some .interrupted ∧ e.machine.loops = [2] ∧
      t.reports = [('>', '+', ⟨1, 0, none⟩), ('+', '[', ⟨1, 1, none⟩), ('[', '-', ⟨1, 1, none⟩)] ∧
      t.reportsPrinted.map Prod.snd = ["\nCurrent: >, next: +\nPtr: 1, value: 0\n",
        "\nCurrent: +, next: [\nPtr: 1, value: 1\n", "\nCurrent: [, next: -\nPtr: 1, value: 1\n"] ∧
      t.observations = [⟨⟨#[0, 0], 1, by decide⟩, [], 1⟩, ⟨⟨#[0, 1], 1, by decide⟩, [], 2⟩,
        ⟨⟨#[0, 1], 1, by decide⟩, [2], 3⟩] := by
  obtain ⟨k, n, t, ht, hl, -⟩ := debug_trace_complete (s := { debug := true, pause := .observe (some 3) })
    (p := #['>', '+', '[', '-', ']']) (m := .start (.blank 2 (by decide)) []) rfl rfl (by decide) rfl
  have hk : 3 = 0 + k := Option.some.inj (hl rfl)
  rw [Nat.zero_add] at hk
  subst hk
  obtain rfl : 3 = n := ht.broken nofun
  obtain rfl : _ = t := ht.log.trans (List.append_nil t)
  exact ⟨_, _, rfl, ht, rfl, rfl, rfl, by decide +kernel, rfl⟩

end TapeMachine
