/-
Debugged runs. Reports and prompts are additions to what a run prints, and
a pause does nothing to it but to take an item of its input. So a debugged
run does what a plain run does on an input without the items its pauses
took (`debugging_transparent`).

Which items these are depends on the run, and the plain run has to be given
the rest of the input from its beginning. That is why a stretch of a
debugged run is matched with plain runs on any input that goes on after it
(`Machine.Debugged`), with one condition: where the debugged run has used
its input up, there is none left for the plain one.
-/
import TapeMachine.Proofs.Recurrence

namespace TapeMachine

open Run Program

variable {s : Setup} {p : Program} {i j n : Nat} {m m' m₁ m₂ : Machine}

/-! ## What debugging adds to a transcript -/

/-- The events that only a pause or the report before it makes. -/
def Event.ofDebugging : Event → Bool
  | .step _ _ _ | .prompt | .acknowledge _ => true
  | _ => false

namespace Transcript

/-- The transcript without the reports between steps, the prompts and the
items taken at them. -/
def undebugged (t : Transcript) : Transcript := t.filter fun e => !e.ofDebugging

theorem undebugged_append {t u : Transcript} : undebugged (t ++ u) = undebugged t ++ undebugged u :=
  List.filter_append ..

/-- The program reads no more than is taken. -/
theorem itemsRead_eq_nil {t : Transcript} (h : t.itemsTaken = []) : t.itemsRead = [] := by
  simp only [itemsTaken, itemsRead, List.filterMap_eq_nil_iff] at h ⊢
  intro e he
  have := h e he
  cases e with
  | read item => exact this
  | _ => rfl

/-- Debugging adds to the messages and to nothing else that is printed. -/
theorem textOn_output_undebugged {t : Transcript} : t.undebugged.textOn .output = t.textOn .output := by
  have h : (t.undebugged.printed.filter (·.1 = .output)) = t.printed.filter (·.1 = .output) := by
    induction t with
    | nil => rfl
    | cons e t ih =>
      have hc : printed (e :: t) = printed t ++ printed [e] := printed_append (t := [e])
      have hu : undebugged (e :: t) = undebugged [e] ++ undebugged t := undebugged_append (t := [e])
      rw [hc, hu, printed_append, List.filter_append, List.filter_append, ih]
      cases e <;> rfl
  rw [textOn, textOn, h]

end Transcript

/-! ## Machines on another input -/

/-- The machine with another input left and another record of what it did. -/
def Machine.given (m : Machine) (x : List UInt8) (t : Transcript) : Machine := { m with unread := x, log := t }

def Setup.undebugged (s : Setup) : Setup := { s with debug := false }

/-- From `m` a run has come to `m'`: it has done `t` on the way, and would have
done `u` if it were not debugged. -/
structure Machine.Debugged (s : Setup) (m : Machine) (t u : Transcript) (m' : Machine) : Prop where
  log : m'.log = t ++ m.log
  unread : m.unread = t.itemsTaken ++ m'.unread
  printed : u.printed = t.undebugged.printed
  silent : s.pause = .silent → t.itemsRead = t.itemsTaken

theorem Machine.Debugged.still (hl : m'.log = m.log) (hu : m'.unread = m.unread) : m.Debugged s [] [] m' :=
  ⟨hl, hu.symm, rfl, fun _ => rfl⟩

theorem Machine.Debugged.trans {t₁ t₂ u₁ u₂ : Transcript} (h₁ : m.Debugged s t₁ u₁ m₁)
    (h₂ : m₁.Debugged s t₂ u₂ m₂) : m.Debugged s (t₂ ++ t₁) (u₂ ++ u₁) m₂ where
  log := by rw [h₂.log, h₁.log, List.append_assoc]
  unread := by rw [h₁.unread, h₂.unread, Transcript.itemsTaken_append, List.append_assoc]
  printed := by
    rw [Transcript.printed_append, Transcript.undebugged_append, Transcript.printed_append, h₁.printed, h₂.printed]
  silent hs := by
    rw [Transcript.itemsRead_append, Transcript.itemsTaken_append, h₁.silent hs, h₂.silent hs]

/-- If nothing was left to take, nothing was left to read. -/
theorem Machine.Debugged.eq_nil {t u : Transcript} {y : List UInt8} (h : m.Debugged s t u m')
    (hy : m'.unread = [] → y = []) (hm : m.unread = []) : t.itemsRead ++ y = [] := by
  rw [h.unread, List.append_eq_nil_iff] at hm
  rw [Transcript.itemsRead_eq_nil hm.1, hy hm.2, List.append_nil]

/-! ## Steps -/

/-- A character that is no bracket sees the input only as far as it reads, and
the end of it. -/
theorem Machine.obey_given {c : Plain} :
    match m.obey s c with
    | .ok m₁ => ∃ t, m.Debugged s t t m₁ ∧ ∀ y v, (m₁.unread = [] → y = []) →
        (m.given (t.itemsRead ++ y) v).obey s c = .ok (m₁.given y (t ++ v))
    | .error f => ∀ y v, (m.given y v).obey s c = .error f := by
  unfold obey
  cases hc : Command.ofChar? c.1 with
  | none => exact ⟨[], .still rfl rfl, fun _ _ _ => rfl⟩
  | some cmd =>
    cases cmd with
    | right =>
      simp only [act, given]
      cases m.tape.right? with
      | none => exact fun _ _ => rfl
      | some t => exact ⟨[], .still rfl rfl, fun _ _ _ => rfl⟩
    | left =>
      simp only [act, given]
      cases m.tape.left? with
      | none => exact fun _ _ => rfl
      | some t => exact ⟨[], .still rfl rfl, fun _ _ _ => rfl⟩
    | increment | decrement => exact ⟨[], .still rfl rfl, fun _ _ _ => rfl⟩
    | put => exact ⟨[.put (Char.ofUInt8 m.tape.cell)], ⟨rfl, rfl, rfl, fun _ => rfl⟩, fun _ _ _ => rfl⟩
    | report => exact ⟨[.state (m.tape.report s.view)], ⟨rfl, rfl, rfl, fun _ => rfl⟩, fun _ _ _ => rfl⟩
    | get =>
      simp only [act, readItem, given]
      cases hu : m.unread with
      | nil =>
        refine ⟨[.noInput, .read none, .flush .output], ⟨rfl, hu, rfl, fun _ => rfl⟩, fun y v hy => ?_⟩
        obtain rfl := hy rfl
        rfl
      | cons b rest =>
        exact ⟨[.read (some b), .flush .output], ⟨rfl, hu, rfl, fun _ => rfl⟩, fun _ _ _ => rfl⟩
    | enter => exact absurd (Command.ofChar?_eq_some_iff.1 hc) c.2.1
    | leave => exact absurd (Command.ofChar?_eq_some_iff.1 hc) c.2.2

theorem Dispatch.given_ok {c : Char} (hd : Dispatch s p i m c (.ok (j, m₁))) :
    ∃ t, m.Debugged s t t m₁ ∧ ∀ y v, (m₁.unread = [] → y = []) →
      Dispatch s.undebugged p i (m.given (t.itemsRead ++ y) v) c (.ok (j, m₁.given y (t ++ v))) := by
  cases hd with
  | @plain c _ ho =>
    have h := Machine.obey_given (s := s) (m := m) (c := c)
    rw [ho] at h
    obtain ⟨t, ht, hy⟩ := h
    exact ⟨t, ht, fun y v hu => .plain (hy y v hu)⟩
  | enter hz => exact ⟨[], .still rfl rfl, fun _ _ _ => .enter hz⟩
  | skip hz hp => exact ⟨[], .still rfl rfl, fun _ _ _ => .skip hz hp⟩
  | leave hz => exact ⟨[], .still rfl rfl, fun _ _ _ => .leave hz⟩
  | back hz hl => exact ⟨[], .still rfl rfl, fun _ _ _ => .back hz hl⟩

theorem Dispatch.given_error {c : Char} {f : Fault} (hd : Dispatch s p i m c (.error f)) (y : List UInt8)
    (v : Transcript) : Dispatch s.undebugged p i (m.given y v) c (.error f) := by
  cases hd with
  | @fault c _ ho =>
    have h := Machine.obey_given (s := s) (m := m) (c := c)
    rw [ho] at h
    exact .fault (h y v)
  | unclosed hz hp => exact .unclosed hz hp
  | unopened hz hl => exact .unopened hz hl

/-- What is between two steps of a debugged run leaves only a trace in its
transcript and takes nothing but what the pause takes. -/
theorem Run.exists_debugged_of_afterStep {c : Char} (hp : s.pause = .prompt ∨ s.pause = .silent) :
    ∃ t m₁, afterStep s p c j m = .going j m₁ ∧ m.Debugged s t [] m₁ ∧ t.itemsRead = [] ∧
      ∀ y v, m₁.given y v = m.given y v := by
  unfold afterStep
  split
  · cases p[j]? with
    | none => exact ⟨[], m, rfl, .still rfl rfl, rfl, fun _ _ => rfl⟩
    | some d =>
      rcases hp with hp | hp
      · simp only [Machine.pause, hp]
        refine ⟨[.acknowledge m.unread.head?, .flush .diagnostics, .flush .output, .prompt,
          .step c d (m.tape.report s.view)], _, rfl, ⟨rfl, ?_, rfl, ?_⟩, rfl, fun _ _ => rfl⟩
        · change m.unread = _ ++ m.unread.tail
          cases m.unread <;> rfl
        · intro hs
          rw [hp] at hs
          cases hs
      · simp only [Machine.pause, hp]
        exact ⟨[.step c d (m.tape.report s.view)], _, rfl, ⟨rfl, rfl, rfl, fun _ => rfl⟩, rfl, fun _ _ => rfl⟩
  · exact ⟨[], m, rfl, .still rfl rfl, rfl, fun _ _ => rfl⟩

/-! ## Runs -/

namespace Run

/-- A step that goes on, and the step of a plain run that goes with it. -/
theorem exists_debugged_of_step (hp : s.pause = .prompt ∨ s.pause = .silent)
    (h : step s p (.going i m) = .going j m₁) :
    ∃ t u, m.Debugged s t u m₁ ∧ ∀ y v, (m₁.unread = [] → y = []) →
      step s.undebugged p (.going i (m.given (t.itemsRead ++ y) v)) = .going j (m₁.given y (u ++ v)) := by
  rcases step_cases (s := s) (p := p) (i := i) (m := m) with ⟨-, he⟩ | ⟨c, e, hc, hd, he⟩
  · rw [he] at h
    cases h
  · rw [he] at h
    cases e with
    | error f => cases h
    | ok e =>
      obtain ⟨k, m'⟩ := e
      obtain ⟨t₂, m₂, ha, ht₂, hr, hm₂⟩ := exists_debugged_of_afterStep (p := p) (j := k) (m := m') (c := c) hp
      rw [resume, ha] at h
      cases h
      obtain ⟨t₁, ht₁, hg⟩ := hd.given_ok
      refine ⟨t₂ ++ t₁, t₁, ht₁.trans ht₂, fun y v hy => ?_⟩
      have hy' : m'.unread = [] → y = [] := by
        intro hm
        have hn := ht₂.eq_nil hy hm
        rwa [hr] at hn
      rw [Transcript.itemsRead_append, hr, List.append_nil, hm₂]
      exact (hg y v hy').step_eq_going rfl hc

/-- Step by step, with what was read before in front of what is read after. -/
theorem exists_debugged_of_steps (hp : s.pause = .prompt ∨ s.pause = .silent)
    (h : steps s p n (.going i m) = .going j m₁) :
    ∃ t u, m.Debugged s t u m₁ ∧ ∀ y v, (m₁.unread = [] → y = []) →
      steps s.undebugged p n (.going i (m.given (t.itemsRead ++ y) v)) = .going j (m₁.given y (u ++ v)) := by
  induction n generalizing i m with
  | zero =>
    cases h
    exact ⟨[], [], .still rfl rfl, fun _ _ _ => rfl⟩
  | succ n ih =>
    rw [steps_succ] at h
    cases hr : step s p (.going i m) with
    | ended f m₂ =>
      rw [hr, steps_ended] at h
      cases h
    | going k m₂ =>
      rw [hr] at h
      obtain ⟨t₁, u₁, h₁, hg₁⟩ := exists_debugged_of_step hp hr
      obtain ⟨t₂, u₂, h₂, hg₂⟩ := ih h
      refine ⟨t₂ ++ t₁, u₂ ++ u₁, h₁.trans h₂, fun y v hy => ?_⟩
      rw [Transcript.itemsRead_append, List.append_assoc, steps_succ, hg₁ _ v (h₂.eq_nil hy), hg₂ y _ hy,
        List.append_assoc]

/-- The last step takes nothing, and is the last one on any input. -/
theorem ended_given (hp : s.pause = .prompt ∨ s.pause = .silent) {f : Option Fault}
    (h : step s p (.going i m) = .ended f m') :
    m' = m ∧ ∀ y v, step s.undebugged p (.going i (m.given y v)) = .ended f (m.given y v) := by
  rcases step_cases (s := s) (p := p) (i := i) (m := m) with ⟨hc, he⟩ | ⟨c, e, hc, hd, he⟩
  · rw [he] at h
    cases h
    exact ⟨rfl, fun _ _ => step_past hc⟩
  · rw [he] at h
    cases e with
    | error g =>
      cases h
      exact ⟨rfl, fun y v => (hd.given_error y v).step_eq hc⟩
    | ok e =>
      obtain ⟨_, _, ha, -⟩ := exists_debugged_of_afterStep (p := p) (j := e.1) (m := e.2) (c := c) hp
      rw [resume, ha] at h
      cases h

end Run

/-- A debugged run that ends, and the plain run on what it read and left. -/
theorem Machine.exists_debugged_of_run (hp : s.pause = .prompt ∨ s.pause = .silent) {e : Ending}
    (h : m.run s p = some e) :
    ∃ t u, m.Debugged s t u e.machine ∧
      (m.given (t.itemsRead ++ e.machine.unread) m.log).run s.undebugged p =
        some ⟨e.fault, e.machine.given e.machine.unread (u ++ m.log)⟩ := by
  obtain ⟨n, hn⟩ := exists_steps_of_run h
  obtain ⟨k, j, m₁, hk, he⟩ := exists_last_step hn
  obtain ⟨hm, hlast⟩ := ended_given hp he
  obtain ⟨t, u, ht, hg⟩ := exists_debugged_of_steps hp hk
  rw [hm]
  refine ⟨t, u, ⟨ht.log, ht.unread, ht.printed, ht.silent⟩, run_eq_some_iff.2 ⟨k + 1, ?_⟩⟩
  rw [steps_add]
  exact (congrArg _ (hg m₁.unread m.log id)).trans (hlast _ _)

/-- A silent debugged run and the plain run end together. -/
theorem Machine.run_eq_none_iff_of_silent (hp : s.pause = .silent) :
    m.run s p = none ↔ m.run s.undebugged p = none := by
  constructor
  · intro h
    rw [run_eq_none_iff] at h ⊢
    intro n f m' hn
    cases hr : steps s p n (.going 0 (m.inside [])) with
    | ended g m₁ => exact h n g m₁ hr
    | going j m₁ =>
      obtain ⟨t, u, ht, hg⟩ := exists_debugged_of_steps (.inr hp) hr
      have hplain := hg m₁.unread m.log id
      rw [ht.silent hp, ← ht.unread] at hplain
      cases hn.symm.trans hplain
  · intro h
    cases hr : m.run s p with
    | none => rfl
    | some e =>
      obtain ⟨t, u, ht, hg⟩ := exists_debugged_of_run (.inr hp) hr
      rw [ht.silent hp, ← ht.unread] at hg
      cases h.symm.trans hg

/-- Debugging is transparent but for the input its pauses take. A debugged
run that ends has done some `t`, and a plain run on the same input without
what `t` acknowledged ends in the same way and with the same machine. That
run has done some `u`, which prints all that `t` prints but for reports and
prompts, and so the same output. A silent pause takes nothing. -/
theorem debugging_transparent (hp : s.pause = .prompt ∨ s.pause = .silent) :
    (∀ e, m.run s p = some e → ∃ t u : Transcript,
      e.machine.log = t ++ m.log ∧ m.unread = t.itemsTaken ++ e.machine.unread ∧
      { m with unread := t.itemsRead ++ e.machine.unread }.run { s with debug := false } p =
        some ⟨e.fault, { e.machine with log := u ++ m.log }⟩ ∧
      u.printed = t.undebugged.printed ∧ u.textOn .output = t.textOn .output ∧
      (s.pause = .silent → t.itemsRead ++ e.machine.unread = m.unread)) ∧
    (s.pause = .silent → (m.run s p = none ↔ m.run { s with debug := false } p = none)) := by
  refine ⟨fun e h => ?_, Machine.run_eq_none_iff_of_silent⟩
  obtain ⟨t, u, ht, hrun⟩ := Machine.exists_debugged_of_run hp h
  refine ⟨t, u, ht.log, ht.unread, hrun, ht.printed, ?_, fun hs => ?_⟩
  · rw [← Transcript.textOn_output_undebugged (t := t)]
    simp only [Transcript.textOn, ht.printed]
  · rw [ht.silent hs, ← ht.unread]

/-- The two pauses of `,+,` take the `B` and the `C` of `ABCDE`, so a plain run
on `ADE` ends as the debugged one does, with a `D` read and the `E` left. -/
theorem debugged_pauses_take_two :
    ((Machine.start (.blank 1 (by decide)) [65, 68, 69]).run {} #[',', '+', ',']).map
      (fun e => (e.fault, e.machine.tape.cell, e.machine.unread)) = some (none, 68, [69]) := by
  obtain ⟨t, u, hl, -, hrun, -⟩ := (debugging_transparent (s := { debug := true })
    (m := .start (.blank 1 (by decide)) [65, 66, 67, 68, 69]) (p := #[',', '+', ',']) (.inl rfl)).1 _ rfl
  have ht : t = _ := (List.append_nil t).symm.trans hl.symm
  subst ht
  exact congrArg (Option.map fun e => (e.fault, e.machine.tape.cell, e.machine.unread)) hrun

end TapeMachine
