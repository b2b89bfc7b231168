/-
Runs on more input. A step that finds all it reads does the same with more
input behind that. Otherwise it has found nothing, and with more input it
does the same before that (`Run.step_feed`).
-/
import TapeMachine.CommandLine.Console
import TapeMachine.Proofs.Accounts

namespace TapeMachine

open Machine Run

variable {s : Setup} {p : Program} {i j : Nat} {m m' : Machine} {more rest : List UInt8} {c : Char}
  {events events' ends ends' : List Event} {t t' : Transcript}

theorem Machine.feed_nil : m.feed [] = m := by rw [feed, List.append_nil]

theorem Machine.feed_feed : (m.feed more).feed rest = m.feed (more ++ rest) := by
  rw [feed, feed, feed, List.append_assoc]

/-- The ones found nothing at some place, and the others were the same up to there. -/
def Starves (events events' : List Event) : Prop :=
  ∃ before e behind, events = before ++ e :: behind ∧ (∀ x ∈ before, x.isStarved = false) ∧ e.isStarved = true ∧
    before <+: events'

theorem Starves.append (h : Starves events events') : Starves (events ++ ends) (events' ++ ends') := by
  obtain ⟨before, e, behind, rfl, hbefore, he, hprefix⟩ := h
  exact ⟨before, e, behind ++ ends, by simp, hbefore, he, hprefix.trans (List.prefix_append _ _)⟩

/-- What is noted after the place makes no difference. -/
theorem Starves.log (h : Starves m.log.reverse m'.log.reverse) :
    Starves (t ++ m.log).reverse (t' ++ m'.log).reverse := by
  rw [List.reverse_append, List.reverse_append]
  exact h.append

/-- The run with more input for its machine, standing where it stands. -/
def Run.feed (more : List UInt8) : Run → Run
  | .going i m => .going i (m.feed more)
  | .ended f m => .ended f (m.feed more)

/-- The one machine missed nothing and the other one has only more input left, or
the one has missed something. -/
def Machine.Outdoes (more : List UInt8) (m m' : Machine) : Prop :=
  m' = m.feed more ∧ (∀ e ∈ m.log, e.isStarved = false) ∨ Starves m.log.reverse m'.log.reverse

/-- The same of runs. -/
def Run.Outdoes (more : List UInt8) (r r' : Run) : Prop :=
  r' = r.feed more ∧ (∀ e ∈ r.machine.log, e.isStarved = false) ∨ Starves r.machine.log.reverse r'.machine.log.reverse

namespace Machine

section

variable (hlog : ∀ e ∈ m.log, e.isStarved = false)
include hlog

/-- A machine finds nothing right after it has noted `t`. -/
theorem starves_of_log {e : Event} (he : e.isStarved = true) (ht : ∀ x ∈ t, x.isStarved = false)
    (u u' : Transcript) : Starves (u ++ e :: (t ++ m.log)).reverse (u' ++ (t ++ m.log)).reverse := by
  refine ⟨(t ++ m.log).reverse, e, u.reverse, by simp, ?_, he, ?_⟩
  · intro x hx
    exact (List.mem_append.1 (List.mem_reverse.1 hx)).elim (ht x) (hlog x)
  · exact List.reverse_prefix.2 (List.suffix_append _ _)

/-- A read finds what is there first, whatever is behind that. -/
theorem act_get_feed : (m.act s p i (some .get)).2.Outdoes more ((m.feed more).act s p i (some .get)).2 := by
  obtain ⟨tape, loops, unread, tally, pauses, log⟩ := m
  cases unread with
  | nil =>
    refine .inr ?_
    have hflush : ∀ x ∈ [Event.flush .output], x.isStarved = false := List.forall_mem_singleton.2 rfl
    cases more with
    | nil => exact starves_of_log hlog (e := .read none) rfl hflush [.noInput] [.noInput, .read none]
    | cons b more => exact starves_of_log hlog (e := .read none) rfl hflush [.noInput] [.read (some b)]
  | cons b unread => exact .inl ⟨rfl, List.forall_mem_cons.2 ⟨rfl, List.forall_mem_cons.2 ⟨rfl, hlog⟩⟩⟩

theorem act_feed (more : List UInt8) (cmd : Option Command) :
    ((m.feed more).act s p i cmd).1 = (m.act s p i cmd).1 ∧
      (m.act s p i cmd).2.Outdoes more ((m.feed more).act s p i cmd).2 := by
  cases cmd with
  | none => exact ⟨rfl, .inl ⟨rfl, hlog⟩⟩
  | some cmd =>
    cases cmd with
    | right =>
      dsimp only [act, feed]
      cases m.tape.right? <;> exact ⟨rfl, .inl ⟨rfl, hlog⟩⟩
    | left =>
      dsimp only [act, feed]
      cases m.tape.left? <;> exact ⟨rfl, .inl ⟨rfl, hlog⟩⟩
    | increment | decrement => exact ⟨rfl, .inl ⟨rfl, hlog⟩⟩
    | put | report => exact ⟨rfl, .inl ⟨rfl, List.forall_mem_cons.2 ⟨rfl, hlog⟩⟩⟩
    | get => exact ⟨rfl, act_get_feed hlog⟩
    | enter =>
      dsimp only [act, feed]
      split
      · cases p.close? (i + 1) <;> exact ⟨rfl, .inl ⟨rfl, hlog⟩⟩
      · exact ⟨rfl, .inl ⟨rfl, hlog⟩⟩
    | leave =>
      dsimp only [act, feed]
      split
      · exact ⟨rfl, .inl ⟨rfl, hlog⟩⟩
      · split <;> exact ⟨rfl, .inl ⟨rfl, hlog⟩⟩

theorem pause_feed (more : List UInt8) :
    ((m.feed more).pause s).1 = (m.pause s).1 ∧ (m.pause s).2.Outdoes more ((m.feed more).pause s).2 := by
  unfold pause
  split
  · refine ⟨rfl, ?_⟩
    obtain ⟨tape, loops, unread, tally, pauses, log⟩ := m
    have hprompt : ∀ x ∈ [Event.flush .diagnostics, .flush .output, .prompt], x.isStarved = false := by decide
    cases unread with
    | nil =>
      exact .inr (starves_of_log hlog (e := .acknowledge none) rfl hprompt [] [.acknowledge more.head?])
    | cons b unread =>
      refine .inl ⟨rfl, List.forall_mem_cons.2 ⟨rfl, ?_⟩⟩
      exact List.forall_mem_append.2 ⟨hprompt, hlog⟩
  · exact ⟨rfl, .inl ⟨rfl, hlog⟩⟩
  · exact ⟨rfl, .inl ⟨rfl, List.forall_mem_cons.2 ⟨rfl, hlog⟩⟩⟩
  · dsimp only [note, feed]
    split <;> exact ⟨rfl, .inl ⟨rfl, List.forall_mem_cons.2 ⟨rfl, hlog⟩⟩⟩

end

end Machine

namespace Run

theorem afterStep_feed (h : m.Outdoes more m') : (afterStep s p c j m).Outdoes more (afterStep s p c j m') := by
  rcases h with ⟨rfl, hlog⟩ | hstarves
  · unfold afterStep
    split
    · cases p[j]? with
      | none => exact .inl ⟨rfl, hlog⟩
      | some d =>
        have hnote : ∀ e ∈ (m.note (.step c d (m.tape.report s.view))).log, e.isStarved = false :=
          List.forall_mem_cons.2 ⟨rfl, hlog⟩
        have hnoted : (m.feed more).note (.step c d ((m.feed more).tape.report s.view)) =
          (m.note (.step c d (m.tape.report s.view))).feed more := rfl
        obtain ⟨hfault, hpause⟩ := pause_feed (s := s) hnote more
        dsimp only
        rw [hnoted]
        generalize (m.note _).pause s = x, ((m.note _).feed more).pause s = x' at hfault hpause
        obtain ⟨f, m₁⟩ := x
        obtain ⟨f', m₁'⟩ := x'
        obtain rfl : f' = f := hfault
        cases f' with
        | none => exact hpause.imp_left fun h => ⟨congrArg (Run.going j) h.1, h.2⟩
        | some f => exact hpause.imp_left fun h => ⟨congrArg (Run.ended (some f)) h.1, h.2⟩
    · exact .inl ⟨rfl, hlog⟩
  · obtain ⟨t, ht, -⟩ := exists_accounts_of_afterStep (s := s) (p := p) (c := c) (j := j) (m := m)
    obtain ⟨t', ht', -⟩ := exists_accounts_of_afterStep (s := s) (p := p) (c := c) (j := j) (m := m')
    rw [Run.Outdoes, ht, ht']
    exact .inr hstarves.log

/-- With more input for its machine, a run makes the same step, unless the step
finds nothing. -/
theorem step_feed (hlog : ∀ e ∈ m.log, e.isStarved = false) :
    (step s p (.going i m)).Outdoes more (step s p (.going i (m.feed more))) := by
  cases hc : p[i]? with
  | none =>
    rw [step_past hc, step_past hc]
    exact .inl ⟨rfl, hlog⟩
  | some c =>
    simp only [step, hc]
    obtain ⟨hresult, hact⟩ := act_feed (s := s) (p := p) (i := i) hlog more (Command.ofChar? c)
    generalize m.act s p i (Command.ofChar? c) = x, (m.feed more).act s p i (Command.ofChar? c) = x' at hresult hact
    obtain ⟨e, m₁⟩ := x
    obtain ⟨e', m₁'⟩ := x'
    obtain rfl : e' = e := hresult
    cases e' with
    | error f => exact hact.imp_left fun h => ⟨congrArg (Run.ended (some f)) h.1, h.2⟩
    | ok j => exact afterStep_feed (hact.imp_left fun h => ⟨congrArg countStep h.1, h.2⟩)

end Run
end TapeMachine
