/-
What one step of a run does, said once. A character that is no bracket does
the same wherever it stands (`Machine.obey`, listed in `Machine.Obeys`), and
of the machine it sees no more than the tape and the input
(`Machine.obey_eq`). `Dispatch` lists what a character can do at its
position, the brackets by their partners; a step does what is listed
(`Dispatch.step_eq`) and something always is (`exists_dispatch`).
-/
import TapeMachine.Proofs.Brackets
import TapeMachine.Run

namespace TapeMachine

/-- The character of a command. -/
def Command.char : Command → Char
  | right => '>'
  | left => '<'
  | increment => '+'
  | decrement => '-'
  | put => '.'
  | get => ','
  | enter => '['
  | leave => ']'
  | report => '#'

theorem Command.ofChar?_eq_some_iff {c : Char} {cmd : Command} : ofChar? c = some cmd ↔ c = cmd.char := by
  constructor
  · intro h
    unfold ofChar? at h
    split at h <;> cases h <;> rfl
  · intro h
    rw [h]
    cases cmd <;> rfl

/-- What was done first and then, counted together. -/
def Tally.add (a b : Tally) : Tally where
  reads := a.reads + b.reads
  readErrors := a.readErrors + b.readErrors
  writes := a.writes + b.writes
  steps := a.steps + b.steps

namespace Machine

variable {s : Setup} {m : Machine}

/-- What a character that is no bracket does, wherever it stands; the machine
stays as it is if it fails. -/
def obey (s : Setup) (c : Plain) (m : Machine) : Except Fault Machine :=
  match m.act s #[] 0 (Command.ofChar? c.1) with
  | (.ok _, m') => .ok m'.countStep
  | (.error f, _) => .error f

/-- All that a character that is no bracket can do, by its command. -/
inductive Obeys (s : Setup) (m : Machine) : Option Command → Except Fault Machine → Prop
  | comment : Obeys s m none (.ok m.countStep)
  | right {t : Tape} : m.tape.right? = some t → Obeys s m (some .right) (.ok { m with tape := t }.countStep)
  | pastRight : m.tape.right? = none → Obeys s m (some .right) (.error (.overflow (m.tape.head + 1)))
  | left {t : Tape} : m.tape.left? = some t → Obeys s m (some .left) (.ok { m with tape := t }.countStep)
  | pastLeft : m.tape.left? = none → Obeys s m (some .left) (.error (.overflow (m.tape.head - 1)))
  | increment : Obeys s m (some .increment) (.ok { m with tape := m.tape.write (m.tape.cell + 1) }.countStep)
  | decrement : Obeys s m (some .decrement) (.ok { m with tape := m.tape.write (m.tape.cell - 1) }.countStep)
  | put : Obeys s m (some .put) (.ok { m with
      tally := { m.tally with writes := m.tally.writes + 1 }
      log := .put (Char.ofUInt8 m.tape.cell) :: m.log }.countStep)
  | get : Obeys s m (some .get) (.ok { m.readItem.2 with tape := m.tape.write m.readItem.1 }.countStep)
  | report : Obeys s m (some .report) (.ok (m.report s).countStep)

theorem obeys {c : Plain} : Obeys s m (Command.ofChar? c.1) (m.obey s c) := by
  unfold obey
  cases hc : Command.ofChar? c.1 with
  | none => exact .comment
  | some cmd =>
    cases cmd with
    | right =>
      simp only [act]
      cases h : m.tape.right? with
      | none => exact .pastRight h
      | some t => exact .right h
    | left =>
      simp only [act]
      cases h : m.tape.left? with
      | none => exact .pastLeft h
      | some t => exact .left h
    | increment => exact .increment
    | decrement => exact .decrement
    | put => exact .put
    | get =>
      simp only [act, tape_readItem]
      exact .get
    | report => exact .report
    | enter => exact absurd (Command.ofChar?_eq_some_iff.1 hc) c.2.1
    | leave => exact absurd (Command.ofChar?_eq_some_iff.1 hc) c.2.2

theorem Obeys.obey_eq {c : Plain} {e : Except Fault Machine} (h : Obeys s m (Command.ofChar? c.1) e) :
    m.obey s c = e := by
  unfold obey
  generalize Command.ofChar? c.1 = cmd at h ⊢
  cases h with
  | right ht => simp only [act, ht]
  | pastRight ht => simp only [act, ht]
  | left ht => simp only [act, ht]
  | pastLeft ht => simp only [act, ht]
  | get => simp only [act, tape_readItem]
  | comment | increment | decrement | put | report => rfl

/-- The machine after all that `d` has done since it was started. -/
def after (m d : Machine) : Machine where
  tape := d.tape
  loops := m.loops
  unread := d.unread
  tally := m.tally.add d.tally
  pauses := m.pauses
  log := d.log ++ m.log

theorem obey_eq {c : Plain} :
    m.obey s c = ((start m.tape m.unread).obey s c).map m.after := by
  unfold obey
  cases hc : Command.ofChar? c.1 with
  | none => rfl
  | some cmd =>
    cases cmd with
    | right =>
      simp only [act, start]
      cases m.tape.right? <;> rfl
    | left =>
      simp only [act, start]
      cases m.tape.left? <;> rfl
    | get =>
      simp only [act, start, readItem]
      cases m.unread <;> rfl
    | enter => exact absurd (Command.ofChar?_eq_some_iff.1 hc) c.2.1
    | leave => exact absurd (Command.ofChar?_eq_some_iff.1 hc) c.2.2
    | increment | decrement | put | report => rfl

/-- The machine inside the given loops, whatever loops it was in. -/
def inside (m : Machine) (l : List Nat) : Machine := { m with loops := l }

theorem obey_inside {c : Plain} {l : List Nat} :
    (m.inside l).obey s c = (m.obey s c).map (·.inside l) := by
  rw [obey_eq, obey_eq (m := m)]
  change ((start m.tape m.unread).obey s c).map (m.inside l).after = _
  cases (start m.tape m.unread).obey s c <;> rfl

theorem loops_of_obey {c : Plain} {m' : Machine} (h : m.obey s c = .ok m') : m'.loops = m.loops := by
  rw [obey_eq] at h
  cases hd : (start m.tape m.unread).obey s c with
  | error f => rw [hd] at h; cases h
  | ok d => rw [hd] at h; cases h; rfl

/-- The tape keeps its size and the input is used up from its front; and the
only way to fail is to leave the tape. -/
theorem obey_spec {c : Plain} :
    match m.obey s c with
    | .ok m' => m'.tape.size = m.tape.size ∧ m'.unread <:+ m.unread
    | .error f => ∃ place, f = .overflow place := by
  have h := m.obeys (s := s) (c := c)
  generalize Command.ofChar? c.1 = cmd at h
  generalize m.obey s c = e at h ⊢
  cases h with
  | right ht => exact ⟨congrArg Array.size (Tape.right?_eq_some_iff.1 ht).1, List.suffix_refl _⟩
  | left ht => exact ⟨congrArg Array.size (Tape.left?_eq_some_iff.1 ht).1, List.suffix_refl _⟩
  | pastRight | pastLeft => exact ⟨_, rfl⟩
  | increment | decrement => exact ⟨Tape.size_write, List.suffix_refl _⟩
  | comment | put | report => exact ⟨rfl, List.suffix_refl _⟩
  | get => exact ⟨Tape.size_write, by simpa [countStep] using List.tail_suffix m.unread⟩

theorem size_of_obey {c : Plain} {m' : Machine} (h : m.obey s c = .ok m') : m'.tape.size = m.tape.size := by
  have := obey_spec (s := s) (m := m) (c := c)
  rw [h] at this
  exact this.1

theorem unread_of_obey {c : Plain} {m' : Machine} (h : m.obey s c = .ok m') : m'.unread <:+ m.unread := by
  have := obey_spec (s := s) (m := m) (c := c)
  rw [h] at this
  exact this.2

theorem overflow_of_obey {c : Plain} {f : Fault} (h : m.obey s c = .error f) : ∃ place, f = .overflow place := by
  have := obey_spec (s := s) (m := m) (c := c)
  rwa [h] at this

end Machine

open Run Program

variable {s : Setup} {p : Program} {i : Nat} {m : Machine}

/-- Where a run stands when a character has done what it does. -/
def Run.resume (s : Setup) (p : Program) (c : Char) (m : Machine) : Except Fault (Nat × Machine) → Run
  | .ok (j, m') => afterStep s p c j m'
  | .error f => .ended (some f) m

/-- What a character can do at position `i`: go on somewhere with a machine
that has counted the step, or fail. -/
inductive Dispatch (s : Setup) (p : Program) (i : Nat) (m : Machine) :
    Char → Except Fault (Nat × Machine) → Prop
  | plain {c : Plain} {m' : Machine} : m.obey s c = .ok m' → Dispatch s p i m c.1 (.ok (i + 1, m'))
  | fault {c : Plain} {f : Fault} : m.obey s c = .error f → Dispatch s p i m c.1 (.error f)
  | enter : m.tape.cell ≠ 0 → Dispatch s p i m '[' (.ok (i + 1, { m with loops := i :: m.loops }.countStep))
  | skip {j : Nat} : m.tape.cell = 0 → p.Partners i j → Dispatch s p i m '[' (.ok (j + 1, m.countStep))
  | unclosed : m.tape.cell = 0 → (¬ ∃ j, p.Partners i j) → Dispatch s p i m '[' (.error (.unclosed i))
  | leave : m.tape.cell = 0 →
    Dispatch s p i m ']' (.ok (i + 1, { m with loops := m.loops.tail }.countStep))
  | back {k : Nat} {l : List Nat} : m.tape.cell ≠ 0 → m.loops = k :: l →
    Dispatch s p i m ']' (.ok (k + 1, m.countStep))
  | unopened : m.tape.cell ≠ 0 → m.loops = [] → Dispatch s p i m ']' (.error (.unopened i))

theorem Run.step_past (h : p[i]? = none) : step s p (.going i m) = .ended none m := by simp [step, h]

theorem Run.step_plain {c : Plain} (h : p[i]? = some c.1) :
    step s p (.going i m) = resume s p c.1 m ((m.obey s c).map (i + 1, ·)) := by
  simp only [step, h]
  unfold Machine.obey
  cases hc : Command.ofChar? c.1 with
  | none => rfl
  | some cmd =>
    cases cmd with
    | right =>
      simp only [Machine.act]
      cases m.tape.right? <;> rfl
    | left =>
      simp only [Machine.act]
      cases m.tape.left? <;> rfl
    | enter => exact absurd (Command.ofChar?_eq_some_iff.1 hc) c.2.1
    | leave => exact absurd (Command.ofChar?_eq_some_iff.1 hc) c.2.2
    | increment | decrement | put | get | report => rfl

/-- A step does what is listed for its character. -/
theorem Dispatch.step_eq {c : Char} {r : Except Fault (Nat × Machine)} (h : p[i]? = some c)
    (hd : Dispatch s p i m c r) : step s p (.going i m) = resume s p c m r := by
  cases hd with
  | plain ho => rw [step_plain h, ho]; rfl
  | fault ho => rw [step_plain h, ho]; rfl
  | enter hz => simp [step, h, Command.ofChar?, Machine.act, hz, resume]
  | skip hz hp => simp [step, h, Command.ofChar?, Machine.act, hz, hp.close?, resume]
  | unclosed hz hp => simp [step, h, Command.ofChar?, Machine.act, hz, (close?_eq_none_iff h).2 hp, resume]
  | leave hz => simp [step, h, Command.ofChar?, Machine.act, hz, resume]
  | back hz hl => simp [step, h, Command.ofChar?, Machine.act, hz, hl, resume]
  | unopened hz hl => simp [step, h, Command.ofChar?, Machine.act, hz, hl, resume]

theorem exists_dispatch {c : Char} : ∃ r, Dispatch s p i m c r := by
  rcases char_cases c with rfl | rfl | ⟨c, rfl⟩
  · by_cases hz : m.tape.cell = 0
    · by_cases hp : ∃ j, p.Partners i j
      · obtain ⟨j, hp⟩ := hp
        exact ⟨_, .skip hz hp⟩
      · exact ⟨_, .unclosed hz hp⟩
    · exact ⟨_, .enter hz⟩
  · by_cases hz : m.tape.cell = 0
    · exact ⟨_, .leave hz⟩
    · cases hl : m.loops with
      | nil => exact ⟨_, .unopened hz hl⟩
      | cons k l => exact ⟨_, .back hz hl⟩
  · cases ho : m.obey s c with
    | error f => exact ⟨_, .fault ho⟩
    | ok m' => exact ⟨_, .plain ho⟩

/-- All that a step can be. -/
theorem Run.step_cases : p[i]? = none ∧ step s p (.going i m) = .ended none m ∨
    ∃ c e, p[i]? = some c ∧ Dispatch s p i m c e ∧ step s p (.going i m) = resume s p c m e := by
  cases hc : p[i]? with
  | none => exact .inl ⟨rfl, step_past hc⟩
  | some c =>
    obtain ⟨e, hd⟩ := exists_dispatch (s := s) (p := p) (i := i) (m := m) (c := c)
    exact .inr ⟨c, e, rfl, hd, hd.step_eq hc⟩

/-- No character breaks a run off as its observer does. -/
theorem Dispatch.ne_interrupted {c : Char} {f : Fault} (hd : Dispatch s p i m c (.error f)) : f ≠ .interrupted := by
  cases hd with
  | @fault c _ ho =>
    obtain ⟨place, rfl⟩ := Machine.overflow_of_obey ho
    nofun
  | unclosed | unopened => nofun

/-! ## Between two steps -/

/-- The machine is another one after a pause, which takes some of the input
and otherwise only leaves a trace of itself. -/
structure Machine.Paused (m m' : Machine) : Prop where
  tape : m'.tape = m.tape
  loops : m'.loops = m.loops
  tally : m'.tally = m.tally
  unread : m'.unread <:+ m.unread

theorem Machine.Paused.refl : m.Paused m := ⟨rfl, rfl, rfl, List.suffix_refl _⟩

theorem Machine.pause_paused : m.Paused (m.pause s).2 := by
  unfold Machine.pause
  split
  · exact ⟨rfl, rfl, rfl, List.tail_suffix _⟩
  · exact .refl
  · exact ⟨rfl, rfl, rfl, List.suffix_refl _⟩
  · simp only
    split <;> exact ⟨rfl, rfl, rfl, List.suffix_refl _⟩

/-- A pause breaks a run off in one way only, where its observer has had enough. -/
theorem Machine.pause_fst_eq_some_iff {f : Fault} :
    (m.pause s).1 = some f ↔ f = .interrupted ∧ s.pause = .observe (some (m.pauses + 1)) := by
  unfold Machine.pause
  split
  · next h => simp [h]
  · next h => simp [h]
  · next h => simp [h]
  · next limit h =>
    rw [h]
    dsimp only [note]
    split
    · next hl => simp [← hl, eq_comm]
    · next hl => simp [Ne.symm hl]

theorem Run.afterStep_of_debug_eq_false {c : Char} {j : Nat} (h : s.debug = false) :
    afterStep s p c j m = .going j m := by
  simp [afterStep, h]

/-- A plain run goes straight to its next step. -/
theorem Dispatch.step_eq_going {c : Char} {j : Nat} {m' : Machine} (hs : s.debug = false) (hc : p[i]? = some c)
    (hd : Dispatch s p i m c (.ok (j, m'))) : step s p (.going i m) = .going j m' :=
  (hd.step_eq hc).trans (Run.afterStep_of_debug_eq_false hs)

/-- After a step a run goes on, or an observer breaks it off inside the program. -/
theorem Run.afterStep_cases {c : Char} {j : Nat} :
    ∃ m', m.Paused m' ∧
      (afterStep s p c j m = .going j m' ∨
        (j < p.size ∧ s.debug = true ∧ s.pause = .observe (some (m.pauses + 1))) ∧
          afterStep s p c j m = .ended (some .interrupted) m') := by
  unfold afterStep
  split
  · next hd =>
    split
    · exact ⟨m, .refl, .inl rfl⟩
    · next d hj =>
      have hp := Machine.pause_paused (s := s) (m := m.note (.step c d (m.tape.report s.view)))
      refine ⟨_, ⟨hp.tape, hp.loops, hp.tally, hp.unread⟩, ?_⟩
      split
      · next h => exact .inl (by rw [h])
      · next f m' h =>
        obtain ⟨rfl, hpause⟩ := Machine.pause_fst_eq_some_iff.1 (congrArg Prod.fst h)
        exact .inr ⟨⟨lt_size hj, hd, hpause⟩, by rw [h]⟩
  · exact ⟨m, .refl, .inl rfl⟩

/-- A step that goes on has done its character, and there may have been a pause. -/
theorem Run.exists_dispatch_of_going {j : Nat} {m' : Machine} (h : step s p (.going i m) = .going j m') :
    ∃ c m₁, p[i]? = some c ∧ Dispatch s p i m c (.ok (j, m₁)) ∧ m₁.Paused m' ∧
      afterStep s p c j m₁ = .going j m' := by
  rcases step_cases (s := s) (p := p) (i := i) (m := m) with ⟨-, he⟩ | ⟨c, e, hc, hd, he⟩
  · rw [he] at h
    cases h
  · rw [he] at h
    cases e with
    | error f => cases h
    | ok e =>
      obtain ⟨m₂, hp, hr | ⟨-, hr⟩⟩ := afterStep_cases (s := s) (p := p) (c := c) (j := e.1) (m := e.2)
      · rw [resume, hr] at h
        cases h
        exact ⟨c, e.2, hc, hd, hp, hr⟩
      · rw [resume, hr] at h
        cases h

/-- All that a step can be that ends a run. -/
theorem Run.ended_cases {f : Option Fault} {m' : Machine} (h : step s p (.going i m) = .ended f m') :
    (f = none ∧ p[i]? = none ∧ m' = m) ∨
    (∃ c g, f = some g ∧ p[i]? = some c ∧ Dispatch s p i m c (.error g) ∧ m' = m) ∨
    ∃ c j m₁, f = some .interrupted ∧ p[i]? = some c ∧ Dispatch s p i m c (.ok (j, m₁)) ∧ m₁.Paused m' ∧
      j < p.size ∧ s.debug = true ∧ s.pause = .observe (some (m₁.pauses + 1)) := by
  rcases step_cases (s := s) (p := p) (i := i) (m := m) with ⟨hc, he⟩ | ⟨c, e, hc, hd, he⟩
  · rw [he] at h
    cases h
    exact .inl ⟨rfl, hc, rfl⟩
  · rw [he] at h
    cases e with
    | error g =>
      cases h
      exact .inr (.inl ⟨c, g, rfl, hc, hd, rfl⟩)
    | ok e =>
      obtain ⟨m₂, hp, hr | ⟨⟨hj, hs, hpause⟩, hr⟩⟩ := afterStep_cases (s := s) (p := p) (c := c) (j := e.1) (m := e.2)
      · rw [resume, hr] at h
        cases h
      · rw [resume, hr] at h
        cases h
        exact .inr (.inr ⟨c, e.1, e.2, rfl, hc, hd, hp, hj, hs, hpause⟩)

/-- A run is complete with the step that finds the program at its end. -/
theorem Run.past_of_complete {m' : Machine} (h : step s p (.going i m) = .ended none m') :
    p[i]? = none ∧ m' = m := by
  rcases ended_cases h with ⟨-, hc, hm⟩ | ⟨c, g, hf, -⟩ | ⟨c, j, m₁, hf, -⟩
  · exact ⟨hc, hm⟩
  · cases hf
  · cases hf

/-! ## Brackets -/

/-- The machine after a bracket, inside the loops that it leads into. -/
def Machine.ledInto (m : Machine) (l : List Nat) : Machine := (m.inside l).countStep

/-- A bracket looks at the cell and the loops and at nothing else. -/
theorem Run.step_bracket {c : Char} (hs : s.debug = false) (hc : p[i]? = some c) (hb : c = '[' ∨ c = ']') :
    (∃ j l, ∀ m' : Machine, m.tape.cell = m'.tape.cell → m.loops = m'.loops →
      step s p (.going i m') = .going j (m'.ledInto l)) ∨
    ∃ f, ∀ m' : Machine, m.tape.cell = m'.tape.cell → m.loops = m'.loops →
      step s p (.going i m') = .ended (some f) m' := by
  obtain ⟨e, hd⟩ := exists_dispatch (s := s) (p := p) (i := i) (m := m) (c := c)
  cases hd with
  | @plain c => exact absurd hb (not_or.2 c.2)
  | @fault c => exact absurd hb (not_or.2 c.2)
  | enter hz =>
    refine .inl ⟨i + 1, i :: m.loops, fun m' ht hl => ?_⟩
    rw [(Dispatch.enter (ht ▸ hz)).step_eq_going hs hc, hl]
    rfl
  | @skip j hz hp =>
    refine .inl ⟨j + 1, m.loops, fun m' ht hl => ?_⟩
    rw [(Dispatch.skip (ht ▸ hz) hp).step_eq_going hs hc, hl]
    rfl
  | unclosed hz hp => exact .inr ⟨.unclosed i, fun m' ht _ => (Dispatch.unclosed (ht ▸ hz) hp).step_eq hc⟩
  | leave hz =>
    refine .inl ⟨i + 1, m.loops.tail, fun m' ht hl => ?_⟩
    rw [(Dispatch.leave (ht ▸ hz)).step_eq_going hs hc, hl]
    rfl
  | @back k l hz hk =>
    refine .inl ⟨k + 1, m.loops, fun m' ht hl => ?_⟩
    rw [(Dispatch.back (ht ▸ hz) (hl ▸ hk)).step_eq_going hs hc, hl]
    rfl
  | unopened hz hk => exact .inr ⟨.unopened i, fun m' ht hl => (Dispatch.unopened (ht ▸ hz) (hl ▸ hk)).step_eq hc⟩

end TapeMachine
