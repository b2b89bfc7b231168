/-
What is seen at a console. A step that was tried with less input than there
is does the same as with all of it, up to the read that found nothing
(`Stage.advance_feed`); so fetching makes no difference to what is shown
(`converses_iff_plays`), and playing step by step is playing
(`plays_iff_play`). All in all a console shows what the invocation shows, and
comes to an end exactly if that does (`consoles_iff_invoke`).
-/
import TapeMachine.Proofs.Invocation
import TapeMachine.Proofs.MoreInput

namespace TapeMachine

open Machine Run

variable {fs : Files} {s : Setup} {supply : Supply} {p : Program} {i k n : Nat} {m m' : Machine}
  {l more rest pending left : List UInt8} {events events' : List Event}

/-! ## More input for a supply -/

theorem Supply.takeLine_feed (h : 0x0a ∈ l) : takeLine (l ++ more) = ((takeLine l).1, (takeLine l).2 ++ more) := by
  induction l with
  | nil => cases h
  | cons b l ih =>
    rw [List.cons_append, takeLine, takeLine]
    split
    · rfl
    · next hb => rw [ih ((List.mem_cons.1 h).resolve_left (Ne.symm hb))]

namespace CommandLine

variable {stage : Stage} {c c' : Console} {text : String} {failure : Option Failure}

theorem next_feed (h : (Stage.between supply m).lacksLine = false) :
    supply.next fs (m.unread ++ more) =
      { supply.next fs m.unread with unread := (supply.next fs m.unread).unread ++ more } := by
  cases supply with
  | argument text =>
    unfold Supply.next
    dsimp only
    split
    · rfl
    · split <;> rfl
  | lines =>
    have hmem : (0x0a : UInt8) ∈ m.unread := by simpa [Stage.lacksLine] using h
    obtain ⟨b, l, hl⟩ := List.exists_cons_of_ne_nil (List.ne_nil_of_mem hmem)
    rw [hl] at hmem ⊢
    rw [List.cons_append, Supply.next_lines_cons, Supply.next_lines_cons, ← List.cons_append,
      Supply.takeLine_feed hmem]
  | spent => rfl

theorem Stage.feed_nil : stage.feed [] = stage := by
  cases stage <;> rw [feed, Machine.feed_nil]

theorem Stage.feed_feed : (stage.feed more).feed rest = stage.feed (more ++ rest) := by
  cases stage <;> simp only [feed, Machine.feed_feed]

theorem Stage.eq_between_of_lacksLine (h : stage.lacksLine = true) : ∃ m, stage = .between .lines m := by
  unfold lacksLine at h
  split at h
  · exact ⟨_, rfl⟩
  · cases h

/-- Between programs the machine does nothing. -/
theorem Stage.events_between : ((between supply m).advance fs s).events = [] := by
  simp only [advance]
  cases (supply.next fs m.unread).drawn <;> rfl

/-- With more input a step is the same, or it has found nothing where it was the
same up to there. -/
theorem Stage.advance_feed (fs : Files) (s : Setup) (more : List UInt8) (h : stage.lacksLine = false) :
    (stage.feed more).advance fs s = { stage.advance fs s with stage := (stage.advance fs s).stage.feed more } ∧
        (∀ e ∈ (stage.advance fs s).events, e.isStarved = false) ∨
      (stage.advance fs s).announced = "" ∧ ((stage.feed more).advance fs s).announced = "" ∧
        Starves (stage.advance fs s).events ((stage.feed more).advance fs s).events := by
  cases stage with
  | between supply m =>
    have hnext : supply.next fs (m.feed more).unread = _ := next_feed h
    refine .inl ⟨?_, fun e he => ?_⟩
    · simp only [advance, feed, hnext]
      cases (supply.next fs m.unread).drawn <;> rfl
    · rw [events_between] at he
      cases he
  | stopped failure m => exact .inl ⟨rfl, nofun⟩
  | within supply p i m =>
    have hstep : (Run.step s p (.going i m.quiet)).Outdoes more (Run.step s p (.going i (m.feed more).quiet)) :=
      step_feed (m := m.quiet) nofun
    simp only [advance, feed]
    generalize Run.step s p (.going i m.quiet) = r, Run.step s p (.going i (m.feed more).quiet) = r' at hstep ⊢
    rcases hstep with ⟨rfl, hlog⟩ | hstarves
    · refine .inl ⟨?_, ?_⟩
      · cases r with
        | going j m₁ => rfl
        | ended f m₁ => cases f <;> rfl
      · cases r with
        | going j m₁ => exact fun e he => hlog e (List.mem_reverse.1 he)
        | ended f m₁ => exact fun e he => hlog e (List.mem_reverse.1 he)
    · refine .inr ⟨?_, ?_, ?_⟩
      · cases r <;> rfl
      · cases r' <;> rfl
      · cases r <;> cases r' <;> exact hstarves

/-! ## What is on the screen -/

theorem told_nil : told [] = "" := rfl

theorem told_append : told (events ++ events') = told events ++ told events' := by
  rw [told, List.reverse_append, Transcript.text_append]
  rfl

namespace Advance

variable {a : Advance}

theorem before_prefix_events : a.before <+: a.events := List.takeWhile_prefix _

/-- Events that nobody missed anything in are before all that was missed. -/
theorem prefix_before (h : events <+: a.events) (he : ∀ e ∈ events, e.isStarved = false) : events <+: a.before := by
  obtain ⟨behind, hb⟩ := h
  rw [Advance.before, ← hb, List.takeWhile_append_of_pos (by simpa using he)]
  exact List.prefix_append _ _

theorem before_of_starves {a' : Advance} (h : Starves a.events a'.events) :
    a.before <+: a'.before ∧ a.before.length < a.events.length := by
  obtain ⟨before, e, behind, hevents, hbefore, he, hprefix⟩ := h
  have heq : a.before = before := by
    rw [Advance.before, hevents, List.takeWhile_append_of_pos (by simpa using hbefore),
      List.takeWhile_cons_of_neg (by simp [he]), List.append_nil]
  refine ⟨heq ▸ prefix_before hprefix hbefore, ?_⟩
  rw [heq, hevents, List.length_append]
  exact Nat.lt_add_of_pos_right (Nat.succ_pos _)

/-- A part of the events is shown first, and then the rest. -/
theorem textFrom_eq (h : events <+: a.events) (hn : n ≤ events.length) (ha : a.announced = "") :
    a.textFrom n = told (events.drop n) ++ a.textFrom events.length := by
  obtain ⟨behind, hb⟩ := h
  rw [textFrom, textFrom, ha, ← hb, List.drop_append_of_le_length hn, List.drop_left, told_append]
  simp

end Advance

/-- A step that has missed nothing is the step. -/
theorem Stage.advance_feed_of_complete (more : List UInt8) (hlack : stage.lacksLine = false)
    (h : ¬ (stage.advance fs s).before.length < (stage.advance fs s).events.length) :
    (stage.feed more).advance fs s = { stage.advance fs s with stage := (stage.advance fs s).stage.feed more } := by
  rcases advance_feed fs s more hlack with ⟨heq, -⟩ | ⟨-, -, hstarves⟩
  · exact heq
  · exact absurd (Advance.before_of_starves hstarves).2 h

/-- A step that has missed something was right before that. -/
theorem Stage.before_of_incomplete (more : List UInt8) (hlack : stage.lacksLine = false)
    (h : (stage.advance fs s).before.length < (stage.advance fs s).events.length) :
    ((stage.feed more).advance fs s).announced = "" ∧
      (stage.advance fs s).before <+: ((stage.feed more).advance fs s).before := by
  rcases advance_feed fs s more hlack with ⟨-, hevents⟩ | ⟨-, hannounced, hstarves⟩
  · exact absurd (Advance.prefix_before (List.prefix_refl _) hevents).length_le (Nat.not_le.2 h)
  · exact ⟨hannounced, (Advance.before_of_starves hstarves).1⟩

/-! ## Fetching -/

/-- What is fetched of the input that is to come, and what stays. -/
def Want.fetch : Want → List UInt8 → List UInt8 × List UInt8
  | item, pending => (pending.take 1, pending.drop 1)
  | line, pending => Supply.takeLine pending

theorem Want.fetch_append {w : Want} : (w.fetch pending).1 ++ (w.fetch pending).2 = pending := by
  cases w with
  | item => exact List.take_append_drop 1 pending
  | line => exact Supply.takeLine_append

/-- Behind the last that is fetched there is nothing. -/
theorem Want.fetch_of_isLast {w : Want} (h : w.isLast (w.fetch pending).1 = true) : (w.fetch pending).2 = [] := by
  cases pending with
  | nil => cases w <;> rfl
  | cons b rest =>
    cases w with
    | item => cases h
    | line =>
      have hlast : (Supply.takeLine (b :: rest)).1.getLast? ≠ some 0x0a := by simpa [isLast, fetch] using h
      exact (Supply.isLine_takeLine (List.cons_ne_nil b rest)).ended.resolve_left hlast

theorem Want.length_fetch_cons {w : Want} {b : UInt8} : (w.fetch (b :: rest)).2.length ≤ rest.length := by
  cases w with
  | item => exact Nat.le_refl _
  | line => exact Supply.length_takeLine_cons

/-- So often can something be fetched. -/
def Console.due (c : Console) (pending : List UInt8) : Nat := pending.length + if c.ended then 0 else 1

theorem Console.due_feed {w : Want} (h : c.ended = false) :
    (c'.feed w (w.fetch pending).1).due (w.fetch pending).2 < c.due pending := by
  rw [due, due, h]
  cases pending with
  | nil => cases w <;> exact Nat.one_pos
  | cons b rest =>
    have hlt : (w.fetch (b :: rest)).2.length < (b :: rest).length := Nat.lt_succ_of_le Want.length_fetch_cons
    split <;> simp only [Bool.false_eq_true, if_false] <;> omega

/-! ## Turns -/

/-- Of the input that is to come there is none when all was fetched, and no more
of a step is on the screen than was done for sure. -/
structure Console.InOrder (fs : Files) (s : Setup) (c : Console) (pending : List UInt8) : Prop where
  ended : c.ended = true → pending = []
  shown : c.shown ≤ (c.stage.advance fs s).before.length

/-- All that a turn can be where `a` is the step that is made with all of the
input. -/
inductive Console.Turns (fs : Files) (s : Setup) (c : Console) (pending : List UInt8) (a : Advance) : Turn → Prop
  | stop {failure : Option Failure} {m : Machine} : c.stage = .stopped failure m → Turns fs s c pending a (.stop failure)
  | print {c' : Console} : c'.InOrder fs s pending → c'.shown = 0 → c'.stage.feed pending = a.stage →
    Turns fs s c pending a (.print (a.textFrom c.shown) c')
  | ask {text : String} {w : Want} {c' : Console} : c.ended = false → c'.stage = c.stage →
    (c'.feed w (w.fetch pending).1).InOrder fs s (w.fetch pending).2 →
    a.textFrom c.shown = text ++ a.textFrom c'.shown → Turns fs s c pending a (.ask text w c')

/-- A turn where playing has not stopped: a line is fetched for the step, or what
the step does before it misses something is shown, or the step is made. -/
theorem Console.turn_eq {ended : Bool} {shown : Nat} (h : ¬ ∃ failure m, stage = .stopped failure m) :
    (Console.mk stage ended shown).turn fs s =
      if !ended && stage.lacksLine then .ask "" .line ⟨stage, ended, shown⟩
      else if !ended && (stage.advance fs s).before.length < (stage.advance fs s).events.length then
        .ask (told ((stage.advance fs s).before.drop shown)) .item
          ⟨stage, ended, (stage.advance fs s).before.length⟩
      else .print ((stage.advance fs s).textFrom shown) ⟨(stage.advance fs s).stage, ended, 0⟩ := by
  cases stage with
  | stopped failure m => exact absurd ⟨failure, m, rfl⟩ h
  | between | within => rfl

theorem Console.turns (h : c.InOrder fs s pending) :
    c.Turns fs s pending ((c.stage.feed pending).advance fs s) (c.turn fs s) := by
  obtain ⟨stage, ended, shown⟩ := c
  obtain ⟨hended, hshown⟩ := h
  by_cases hover : ∃ failure m, stage = .stopped failure m
  · obtain ⟨failure, m, rfl⟩ := hover
    exact .stop rfl
  rw [Console.turn_eq hover]
  cases ended with
  | true =>
    obtain rfl := hended rfl
    rw [Stage.feed_nil]
    exact .print ⟨fun _ => rfl, Nat.zero_le _⟩ rfl Stage.feed_nil
  | false =>
    cases hlack : stage.lacksLine with
    | true =>
      obtain ⟨m, rfl⟩ := Stage.eq_between_of_lacksLine hlack
      have hbefore := ((Stage.between .lines m).advance fs s).before_prefix_events.length_le
      rw [Stage.events_between] at hbefore
      refine .ask rfl rfl ⟨fun h => Want.fetch_of_isLast (w := .line) h, ?_⟩ String.empty_append.symm
      exact Nat.le_trans (Nat.le_trans hshown hbefore) (Nat.zero_le _)
    | false =>
      rw [Bool.and_false, if_neg Bool.false_ne_true]
      by_cases hlt : (stage.advance fs s).before.length < (stage.advance fs s).events.length
      · rw [if_pos (by simpa using hlt)]
        refine .ask rfl rfl ⟨fun h => Want.fetch_of_isLast (w := .item) h, ?_⟩ ?_
        · exact (Stage.before_of_incomplete (pending.take 1) hlack hlt).2.length_le
        · obtain ⟨hannounced, hbefore⟩ := Stage.before_of_incomplete pending hlack hlt
          exact Advance.textFrom_eq (hbefore.trans Advance.before_prefix_events) hshown hannounced
      · rw [if_neg (by simpa using hlt), Stage.advance_feed_of_complete pending hlack hlt]
        exact .print ⟨nofun, Nat.zero_le _⟩ rfl rfl

/-! ## Conversations -/

/-- Steps until playing has stopped: what is shown of them, behind so many events
of the first, what failed, and the input that is left. -/
inductive Plays (fs : Files) (s : Setup) : Nat → Stage → String → Option Failure → List UInt8 → Prop
  | stopped {n : Nat} {failure : Option Failure} {m : Machine} : Plays fs s n (.stopped failure m) "" failure m.unread
  | step {n : Nat} {stage : Stage} {text : String} {failure : Option Failure} {left : List UInt8} :
    Plays fs s 0 (stage.advance fs s).stage text failure left →
    Plays fs s n stage ((stage.advance fs s).textFrom n ++ text) failure left

/-- Turns until there is nothing more to do, with fetches from the input that is
to come: what is shown, what failed, and the input that is left. -/
inductive Converses (fs : Files) (s : Setup) : Console → List UInt8 → String → Option Failure → List UInt8 → Prop
  | stop {c : Console} {pending : List UInt8} {failure : Option Failure} {m : Machine} :
    c.turn fs s = .stop failure → c.stage = .stopped failure m →
    Converses fs s c pending "" failure (m.unread ++ pending)
  | print {c c' : Console} {pending left : List UInt8} {text later : String} {failure : Option Failure} :
    c.turn fs s = .print text c' → Converses fs s c' pending later failure left →
    Converses fs s c pending (text ++ later) failure left
  | ask {c c' : Console} {pending left : List UInt8} {text later : String} {w : Want} {failure : Option Failure} :
    c.turn fs s = .ask text w c' →
    Converses fs s (c'.feed w (w.fetch pending).1) (w.fetch pending).2 later failure left →
    Converses fs s c pending (text ++ later) failure left

theorem Stage.textFrom_stopped : ((stopped failure m).advance fs s).textFrom n = "" := by
  simp [advance, Advance.textFrom, told_nil]

theorem plays_stopped_iff {g : Option Failure} :
    Plays fs s n (.stopped g m) text failure left ↔ text = "" ∧ failure = g ∧ left = m.unread := by
  constructor
  · intro h
    generalize hstage : Stage.stopped g m = stage at h
    induction h with
    | stopped =>
      cases hstage
      exact ⟨rfl, rfl, rfl⟩
    | step _ ih =>
      subst hstage
      obtain ⟨rfl, rfl, rfl⟩ := ih rfl
      exact ⟨by rw [Stage.textFrom_stopped, String.append_empty], rfl, rfl⟩
  · rintro ⟨rfl, rfl, rfl⟩
    exact .stopped

theorem plays_iff : Plays fs s n stage text failure left ↔
    ∃ later, text = (stage.advance fs s).textFrom n ++ later ∧
      Plays fs s 0 (stage.advance fs s).stage later failure left := by
  constructor
  · intro h
    cases h with
    | stopped => exact ⟨"", by rw [Stage.textFrom_stopped, String.append_empty], .stopped⟩
    | step h => exact ⟨_, rfl, h⟩
  · rintro ⟨later, rfl, h⟩
    exact .step h

/-- What was fetched stands behind what was there. -/
theorem Console.stage_feed_fetch {w : Want} (h : c'.stage = c.stage) :
    (c'.feed w (w.fetch pending).1).stage.feed (w.fetch pending).2 = c.stage.feed pending := by
  change (c'.stage.feed _).feed _ = _
  rw [Stage.feed_feed, Want.fetch_append, h]

theorem Converses.plays (h : Converses fs s c pending text failure left) (hc : c.InOrder fs s pending) :
    Plays fs s c.shown (c.stage.feed pending) text failure left := by
  induction h with
  | stop _ hstage =>
    rw [hstage]
    exact .stopped
  | @print c c' pending left text later failure hturn _ ih =>
    have hturns := c.turns hc
    rw [hturn] at hturns
    cases hturns with
    | print hc' hshown hstage =>
      have hplays := ih hc'
      rw [hshown, hstage] at hplays
      exact .step hplays
  | @ask c c' pending left text later w failure hturn _ ih =>
    have hturns := c.turns hc
    rw [hturn] at hturns
    cases hturns with
    | ask _ hstage hfed htext =>
      have hplays := ih hfed
      rw [Console.stage_feed_fetch hstage] at hplays
      obtain ⟨later, rfl, hlater⟩ := plays_iff.1 hplays
      rw [← String.append_assoc]
      change Plays fs s _ _ (text ++ Advance.textFrom _ c'.shown ++ later) failure left
      rw [← htext]
      exact .step hlater

theorem Plays.converses (h : Plays fs s n stage text failure left) (hc : c.InOrder fs s pending) (hn : c.shown = n)
    (hstage : c.stage.feed pending = stage) : Converses fs s c pending text failure left := by
  induction h generalizing c pending with
  | stopped =>
    obtain ⟨stage, ended, shown⟩ := c
    cases stage with
    | between | within => cases hstage
    | stopped failure m =>
      cases hstage
      exact .stop rfl rfl
  | @step n stage text failure left hplays ih =>
    subst hn
    -- what is missing for the step is fetched first
    induction hdue : c.due pending using Nat.strong_induction_on generalizing c pending with
    | _ due hless =>
      have hturns := c.turns hc
      rw [hstage] at hturns
      cases hturn : c.turn fs s with
      | stop g =>
        rw [hturn] at hturns
        cases hturns with
        | @stop _ m hover =>
          rw [hover] at hstage
          subst hstage
          obtain ⟨rfl, rfl, rfl⟩ := plays_stopped_iff.1 hplays
          rw [String.append_empty, Stage.feed, Stage.textFrom_stopped]
          exact .stop hturn hover
      | print shown c' =>
        rw [hturn] at hturns
        cases hturns with
        | print hc' hshown hnext => exact .print hturn (ih hc' hshown hnext)
      | ask shown w c' =>
        rw [hturn] at hturns
        cases hturns with
        | ask hended hkept hfed htext =>
          rw [htext, String.append_assoc]
          refine .ask hturn ?_
          exact hless _ (hdue ▸ Console.due_feed hended) hfed ((Console.stage_feed_fetch hkept).trans hstage) rfl

/-- Fetching makes no difference to what is shown. -/
theorem converses_iff_plays (hc : c.InOrder fs s pending) :
    Converses fs s c pending text failure left ↔ Plays fs s c.shown (c.stage.feed pending) text failure left :=
  ⟨fun h => h.plays hc, fun h => h.converses hc rfl rfl⟩

/-! ## Playing step by step -/

/-- Steps go on after the first one without what that has noted. -/
theorem steps_succ_eq_ended_iff {j k : Nat} {f : Option Fault} {m₁ : Machine}
    (h : Run.step s p (.going i m.quiet) = .going j m₁) : steps s p (k + 1) (.going i m.quiet) = .ended f m' ↔
      ∃ m₂, steps s p k (.going j m₁.quiet) = .ended f m₂ ∧ m' = m₂.logged m₁.log := by
  have hlogged : steps s p k (.going j m₁) = (steps s p k (.going j m₁.quiet)).retold (·.onto {} m₁.log) := by
    rw [← retelling_onto.steps, retold, onto_empty]
    rfl
  rw [steps_succ, h, hlogged]
  cases steps s p k (.going j m₁.quiet) with
  | going j m₂ => simp [retold]
  | ended g m₂ => simp [retold, onto_empty, and_comm, eq_comm]

theorem advance_going {j : Nat} (h : Run.step s p (.going i m.quiet) = .going j m') :
    (Stage.within supply p i m).advance fs s = ⟨"", m'.log.reverse, .within supply p j m'.quiet⟩ := by
  simp only [Stage.advance, h]

theorem advance_ended {f : Option Fault} (h : Run.step s p (.going i m.quiet) = .ended f m') :
    (Stage.within supply p i m).advance fs s = ⟨"", m'.log.reverse, .after supply f m'.quiet⟩ := by
  simp only [Stage.advance, h]

theorem textFrom_zero {t : Transcript} : (Advance.mk "" t.reverse stage).textFrom 0 = t.text := by
  simp [Advance.textFrom, told]

theorem plays_of_steps {f : Option Fault} (hend : steps s p k (.going i m.quiet) = .ended f m')
    (h : Plays fs s 0 (.after supply f m'.quiet) text failure left) :
    Plays fs s 0 (.within supply p i m) (m'.log.text ++ text) failure left := by
  induction k generalizing i m m' with
  | zero => cases hend
  | succ k ih =>
    cases hr : Run.step s p (.going i m.quiet) with
    | ended g m₁ =>
      rw [steps_succ, hr, steps_ended] at hend
      cases hend
      rw [plays_iff, advance_ended hr, textFrom_zero]
      exact ⟨text, rfl, h⟩
    | going j m₁ =>
      obtain ⟨m₂, hm₂, rfl⟩ := (steps_succ_eq_ended_iff hr).1 hend
      rw [plays_iff, advance_going hr, textFrom_zero]
      exact ⟨m₂.log.text ++ text, by rw [← String.append_assoc, ← Transcript.text_append]; rfl, ih hm₂ h⟩

theorem exists_steps_of_plays (h : Plays fs s 0 (.within supply p i m) text failure left) :
    ∃ k f m' later, steps s p k (.going i m.quiet) = .ended f m' ∧ text = m'.log.text ++ later ∧
      Plays fs s 0 (.after supply f m'.quiet) later failure left := by
  generalize hn : 0 = n, hstage : Stage.within supply p i m = stage at h
  induction h generalizing i m with
  | stopped => cases hstage
  | step hplays ih =>
    subst hn hstage
    cases hr : Run.step s p (.going i m.quiet) with
    | ended f m₁ =>
      rw [advance_ended hr] at hplays ⊢
      exact ⟨1, f, m₁, _, hr, by rw [textFrom_zero], hplays⟩
    | going j m₁ =>
      rw [advance_going hr] at ih ⊢
      obtain ⟨k, f, m₂, later, hk, rfl, hlater⟩ := ih rfl rfl
      refine ⟨k + 1, f, m₂.logged m₁.log, later, (steps_succ_eq_ended_iff hr).2 ⟨m₂, hk, rfl⟩, ?_, hlater⟩
      rw [textFrom_zero, logged, Transcript.text_append, String.append_assoc]

/-- Within a program a run goes on to its end, and then comes what is behind that. -/
theorem plays_within_iff : Plays fs s 0 (.within supply p 0 (m.inside [])) text failure left ↔
    ∃ e later, m.quiet.run s p = some e ∧ text = e.machine.log.text ++ later ∧
      Plays fs s 0 (.after supply e.fault e.machine.quiet) later failure left := by
  constructor
  · intro h
    obtain ⟨k, f, m', later, hk, htext, hlater⟩ := exists_steps_of_plays h
    exact ⟨⟨f, m'⟩, later, run_eq_some_iff.2 ⟨k, hk⟩, htext, hlater⟩
  · rintro ⟨⟨f, m'⟩, later, hrun, rfl, hlater⟩
    obtain ⟨k, hk⟩ := run_eq_some_iff.1 hrun
    exact plays_of_steps hk hlater

theorem textFrom_announced {announced : String} : (Advance.mk announced [] stage).textFrom 0 = announced := by
  simp [Advance.textFrom, told_nil]

section

variable {later : Supply} {a : Announcement}

theorem plays_finished_iff (h : supply.next fs m.unread = ⟨none, .finished, later, rest⟩) :
    Plays fs s 0 (.between supply m) text failure left ↔ text = "" ∧ failure = none ∧ left = rest := by
  have hadvance : (Stage.between supply m).advance fs s = ⟨"", [], .stopped none { m.quiet with unread := rest }⟩ := by
    simp only [Stage.advance, h]
    cases s.debug <;> rfl
  rw [plays_iff, hadvance, textFrom_announced]
  simp [plays_stopped_iff]

theorem plays_unreadable_iff {e : Unreadable} (h : supply.next fs m.unread = ⟨some a, .unreadable e, later, rest⟩) :
    Plays fs s 0 (.between supply m) text failure left ↔
      text = (Scene.drew [] a).text s.debug ∧ failure = some (.unreadable e) ∧ left = rest := by
  have hadvance : (Stage.between supply m).advance fs s =
      ⟨(Scene.drew [] a).text s.debug, [], .stopped (some (.unreadable e)) { m.quiet with unread := rest }⟩ := by
    simp only [Stage.advance, h]
    cases s.debug <;> rfl
  rw [plays_iff, hadvance, textFrom_announced]
  simp [plays_stopped_iff]

theorem plays_program_iff {program : String} (h : supply.next fs m.unread = ⟨some a, .program program, later, rest⟩) :
    Plays fs s 0 (.between supply m) text failure left ↔
      ∃ e behind, { m.quiet with unread := rest }.run s (Program.ofString program) = some e ∧
        text = (Scene.drew [] a).text s.debug ++ e.machine.log.text ++ behind ∧
        Plays fs s 0 (.after later e.fault e.machine.quiet) behind failure left := by
  have hadvance : (Stage.between supply m).advance fs s =
      ⟨(Scene.drew [] a).text s.debug, [],
        .within later (Program.ofString program) 0 ({ m.quiet with unread := rest }.inside [])⟩ := by
    simp only [Stage.advance, h]
    cases s.debug <;> rfl
  rw [plays_iff, hadvance, textFrom_announced]
  constructor
  · rintro ⟨_, rfl, hwithin⟩
    obtain ⟨e, behind, hrun, rfl, hbehind⟩ := plays_within_iff.1 hwithin
    exact ⟨e, behind, hrun, by rw [String.append_assoc], hbehind⟩
  · rintro ⟨e, behind, hrun, rfl, hbehind⟩
    refine ⟨e.machine.log.text ++ behind, by rw [String.append_assoc], ?_⟩
    exact plays_within_iff.2 ⟨e, behind, hrun, rfl, hbehind⟩

end

theorem exists_played_iff {g : Option Failure} {t : String} :
    (∃ m₁, some (Played.mk t g m) = some ⟨text, failure, m₁⟩ ∧ m₁.unread = left) ↔
      text = t ∧ failure = g ∧ left = m.unread := by
  constructor
  · rintro ⟨_, heq, rfl⟩
    cases heq
    exact ⟨rfl, rfl, rfl⟩
  · rintro ⟨rfl, rfl, rfl⟩
    exact ⟨m, rfl, rfl⟩

/-- Playing step by step is playing. -/
theorem plays_iff_play (hn : supply.budget m.unread ≤ n) :
    Plays fs s 0 (.between supply m) text failure left ↔
      ∃ m', play fs s supply m n = some ⟨text, failure, m'⟩ ∧ m'.unread = left := by
  induction n generalizing supply m text with
  | zero => exact absurd hn (Nat.not_le.2 Supply.budget_pos)
  | succ n ih =>
    rcases Supply.next_cases fs m.unread supply with
      hd | ⟨a, e, hd⟩ | ⟨a, program, later, line, rest, hd, -, hlt⟩
    · rw [plays_finished_iff hd, play_finished hd, exists_played_iff]
    · rw [plays_unreadable_iff hd, play_unreadable hd, exists_played_iff]
    · rw [plays_program_iff hd]
      cases hrun : { m.quiet with unread := rest }.run s (Program.ofString program) with
      | none => simp [play_endless hd hrun]
      | some e =>
        obtain ⟨f, m₁⟩ := e
        cases f with
        | some f =>
          rw [play_failed hd hrun, exists_played_iff]
          constructor
          · rintro ⟨_, behind, heq, rfl, hover⟩
            cases heq
            obtain ⟨rfl, rfl, rfl⟩ := plays_stopped_iff.1 hover
            exact ⟨String.append_empty, rfl, rfl⟩
          · rintro ⟨rfl, rfl, rfl⟩
            exact ⟨_, "", rfl, String.append_empty.symm, .stopped⟩
        | none =>
          have hle : later.budget m₁.unread ≤ n :=
            Nat.le_trans (budget_of_run hrun) (Nat.le_of_lt_succ (Nat.lt_of_lt_of_le hlt hn))
          have hplay : play fs s later m₁.quiet n = play fs s later m₁ n := by
            obtain ⟨k, rfl⟩ := Supply.exists_succ_of_budget hle
            rfl
          have hbehind {behind : String} : Plays fs s 0 (.between later m₁.quiet) behind failure left ↔
              ∃ m', play fs s later m₁ n = some ⟨behind, failure, m'⟩ ∧ m'.unread = left := by
            rw [← hplay]
            exact ih hle
          rw [play_completed hd hrun]
          constructor
          · rintro ⟨_, behind, heq, rfl, hplays⟩
            cases heq
            obtain ⟨m', hm', rfl⟩ := hbehind.1 hplays
            exact ⟨m', by rw [hm']; rfl, rfl⟩
          · rintro ⟨m', heq, rfl⟩
            obtain ⟨p, hp, hshown⟩ := Option.map_eq_some_iff.1 heq
            cases hshown
            exact ⟨_, p.shown, rfl, rfl, hbehind.2 ⟨p.machine, hp, rfl⟩⟩

/-! ## Invocations -/

variable {env : Environment} {words : List String} {input : List UInt8} {o : Outcome}

/-- What comes of an invocation at a console: it stops at once, or turns are
taken until there is nothing more to do. -/
inductive Consoles (fs : Files) (env : Environment) (words : List String) (input : List UInt8) : Outcome → Prop
  | stopped {status : Status} {output errors : String} :
    opening (Settings.load fs none env).settings words = .stop status output errors →
    Consoles fs env words input ⟨status, output, (Settings.load fs none env).warnings ++ errors, input⟩
  | played {s : Setup} {c : Console} {text : String} {failure : Option Failure} {left : List UInt8} :
    opening (Settings.load fs none env).settings words = .play s c →
    Converses fs s c input text failure left →
    Consoles fs env words input ⟨.exit (exitCode failure), text,
      (Settings.load fs none env).warnings ++ failure.elim "" Failure.report, left⟩

/-- With all of the input, an invocation stops at once or plays. -/
theorem invoke_cases (fs : Files) (env : Environment) (words : List String) (input : List UInt8) :
    (∃ status output errors, opening (Settings.load fs none env).settings words = .stop status output errors ∧
      invoke fs env words input =
        some ⟨status, output, (Settings.load fs none env).warnings ++ errors, input⟩) ∨
    ∃ s supply tape,
      opening (Settings.load fs none env).settings words = .play s ⟨.between supply (.start tape []), false, 0⟩ ∧
      supply.budget input ≤ input.length + 2 ∧
      invoke fs env words input = (play fs s supply (.start tape input) (input.length + 2)).map fun p =>
        ⟨.exit (exitCode p.failure), p.shown,
          (Settings.load fs none env).warnings ++ p.failure.elim "" Failure.report, p.machine.unread⟩ := by
  unfold opening invoke
  dsimp only
  cases plan (Settings.load fs none env).settings words with
  | stop status output errors => exact .inl ⟨status, output, errors, rfl, rfl⟩
  | run j =>
    dsimp only
    cases htape : Tape.ofLength j.tapeLength with
    | error e => exact .inl ⟨.exit 1, "", Failure.report (.tape e), rfl, by rw [Job.carryOut, htape]; rfl⟩
    | ok tape =>
      refine .inr ⟨j.setup, .ofArgument j.input, tape, rfl, Supply.budget_ofArgument, ?_⟩
      rw [Job.carryOut_eq htape, Option.map_map]
      rfl

/-- An invocation at a console comes to an end exactly if the invocation does,
and to the same one. -/
theorem consoles_iff_invoke : Consoles fs env words input o ↔ invoke fs env words input = some o := by
  rcases invoke_cases fs env words input with
    ⟨status, output, errors, hopening, hinvoke⟩ | ⟨s, supply, tape, hopening, hbudget, hinvoke⟩
  · rw [hinvoke]
    constructor
    · intro h
      cases h with
      | stopped hstop =>
        rw [hopening] at hstop
        cases hstop
        rfl
      | played hplay =>
        rw [hopening] at hplay
        cases hplay
    · intro h
      cases h
      exact .stopped hopening
  · have hplays {text : String} {failure : Option Failure} {left : List UInt8} :
        Converses fs s ⟨.between supply (.start tape []), false, 0⟩ input text failure left ↔ _ :=
      (converses_iff_plays ⟨Bool.noConfusion, Nat.zero_le _⟩).trans (plays_iff_play (m := .start tape input) hbudget)
    rw [hinvoke, Option.map_eq_some_iff]
    constructor
    · intro h
      cases h with
      | stopped hstop =>
        rw [hopening] at hstop
        cases hstop
      | played hplay hconverses =>
        rw [hopening] at hplay
        cases hplay
        obtain ⟨m', hplay, rfl⟩ := hplays.1 hconverses
        exact ⟨_, hplay, rfl⟩
    · rintro ⟨p, hp, rfl⟩
      exact .played hopening (hplays.2 ⟨p.machine, hp, rfl⟩)

end CommandLine
end TapeMachine
