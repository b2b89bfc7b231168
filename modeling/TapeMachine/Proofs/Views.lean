/-
Debuggers. A debugger draws some cells of its tape in every state report, and
that is all. With its reports redrawn without a view it is the plain machine,
step by step and operation by operation; so it calls its streams as the plain
machine does, and its messages without the views are those of the plain
machine (`debugger_is_machine_with_view`).
-/
import TapeMachine.Proofs.ReportText
import TapeMachine.Proofs.Retelling
import TapeMachine.Proofs.Sessions

namespace TapeMachine

open Machine Run

variable {s : Setup} {m : Machine} {f : Report → Report} {view : Option Nat} {range : Nat} {t : Transcript}
  {op : Operation} {ops : List Operation} {d : Performed} {done : List Performed}

/-! ## Calls on streams -/

namespace Transcript

/-- The call on a stream, whatever the message if it prints one. -/
def Entry.call : Entry → Entry
  | .text .diagnostics _ => .text .diagnostics ""
  | e => e

theorem Entry.call_eq_call {a b : Entry} (h : a.call = b.call) :
    a = b ∨ ∃ s s', a = .text .diagnostics s ∧ b = .text .diagnostics s' := by
  unfold call at h
  split at h
  · split at h
    · exact .inr ⟨_, _, rfl, rfl⟩
    · next hb => exact absurd h.symm (hb "")
  · next ha =>
    split at h
    · exact absurd h (ha "")
    · exact .inl h

theorem Entry.call_add {es es' : List Entry} {e : Event} (h : es'.map call = es.map call) :
    (add es' e.unwindowed).map call = (add es e).map call := by
  cases es with
  | nil =>
    obtain rfl := List.map_eq_nil_iff.1 h
    cases e <;> rfl
  | cons a es =>
    obtain ⟨a', es', rfl, ha, hes⟩ := List.map_eq_cons_iff.1 h
    rcases call_eq_call ha with rfl | ⟨s, s', rfl, rfl⟩
    · cases a' with
      | text c s => cases c <;> cases e <;> simp [add, Event.unwindowed, call, hes]
      | flush | read | pause => cases e <;> simp [add, Event.unwindowed, call, hes]
    · cases e <;> simp [add, Event.unwindowed, call, hes]

theorem call_entries : (entries (t.map Event.unwindowed)).map Entry.call = t.entries.map Entry.call := by
  rw [entries, entries, List.map_reverse, List.map_reverse]
  congr 1
  induction t with
  | nil => rfl
  | cons e t ih => exact Entry.call_add ih

/-- What is in `t` was done with a view and what is in `u` without: the same, but for
the views in the messages. -/
structure LosesViews (t u : Transcript) : Prop where
  calls : u.entries.map Entry.call = t.entries.map Entry.call
  output : u.textOn .output = t.textOn .output
  messages : withoutViews (t.textOn .diagnostics) = some (u.textOn .diagnostics)

theorem losesViews_unwindowed (h : ∀ e ∈ t, e.Drawn) : LosesViews t (t.map Event.unwindowed) :=
  ⟨call_entries, textOn_output_unwindowed, withoutViews_messages h⟩

end Transcript

/-! ## Machines -/

/-- The machine with its reports redrawn. -/
def Machine.redrawn (f : Report → Report) (m : Machine) : Machine := { m with log := m.log.map (Event.redrawn f) }

/-- The machine without a window in its reports. -/
def Machine.unwindowed (m : Machine) : Machine := { m with log := m.log.map Event.unwindowed }

theorem Machine.redrawn_unwindowed : redrawn Report.unwindowed = unwindowed := by
  funext m
  rw [redrawn, Event.redrawn_unwindowed, unwindowed]

/-- Nothing that a machine does depends on what it draws. -/
theorem Machine.retelling_redrawn (hf : ∀ t : Tape, f (t.report s.view) = t.report view) :
    Retelling s { s with view := view } (redrawn f) where
  debug := rfl
  tape _ := rfl
  loops _ := rfl
  moved _ _ := rfl
  inside _ _ := rfl
  countStep _ := rfl
  put _ _ := rfl
  readItem m := by
    obtain ⟨tape, loops, unread, tally, pauses, log⟩ := m
    cases unread <;> rfl
  report m := by simp only [Machine.report, note, redrawn, List.map_cons, Event.redrawn, hf]
  between m c d := by simp only [note, redrawn, List.map_cons, Event.redrawn, hf]
  pause m := by
    change (m.redrawn f).pause s = _
    unfold pause
    split
    · rfl
    · rfl
    · rfl
    · dsimp only [note, snapshot, redrawn]
      split <;> rfl

theorem Machine.perform_redrawn (hf : ∀ t : Tape, f (t.report s.view) = t.report view) (hop : op ≠ .window) :
    (m.redrawn f).perform { s with view := view } op = (m.perform s op).map fun x => (x.1, x.2.redrawn f) := by
  have hg := retelling_redrawn hf
  cases op with
  | run p =>
    simp only [perform, runAnswer, hg.run, Option.map_map]
    rfl
  | runBytes bytes =>
    simp only [perform, runAnswer, hg.run, Option.map_map]
    rfl
  | read =>
    simp only [perform, hg.readItem]
    rfl
  | report => simp only [perform, Option.map_some, hg.report]
  | pause =>
    simp only [perform, hg.pause]
    rfl
  | close | seek | poke => rfl
  | window => exact absurd rfl hop

/-! ## Sessions -/

def Performed.redrawn (f : Report → Report) (d : Performed) : Performed := { d with machine := d.machine.redrawn f }

/-- The operation done, without a window in its reports. -/
def Performed.unwindowed (d : Performed) : Performed := { d with machine := d.machine.unwindowed }

theorem Performed.redrawn_unwindowed : redrawn Report.unwindowed = unwindowed := by
  funext d
  rw [redrawn, Machine.redrawn_unwindowed, unwindowed]

theorem session_redrawn (hf : ∀ t : Tape, f (t.report s.view) = t.report view) (hops : ∀ op ∈ ops, op ≠ .window) :
    session { s with view := view } (m.redrawn f) ops = (session s m ops).map (List.map (Performed.redrawn f)) := by
  induction ops generalizing m with
  | nil => rfl
  | cons op ops ih =>
    obtain ⟨hop, hrest⟩ := List.forall_mem_cons.1 hops
    have hperform : (m.redrawn f).quiet.perform { s with view := view } op = _ :=
      perform_redrawn (m := m.quiet) hf hop
    rw [session_cons, session_cons, hperform]
    cases m.quiet.perform s op with
    | none => rfl
    | some x =>
      rw [Option.map_some, Option.bind_some, Option.bind_some, ih hrest, Option.map_map, Option.map_map]
      rfl

/-- Of the machine that it begins with, a session knows all but the transcript. -/
theorem session_of_quiet_eq {m' : Machine} (h : m.quiet = m'.quiet) : session s m ops = session s m' ops := by
  cases ops with
  | nil => rfl
  | cons op ops => rw [session_cons, session_cons, h]

theorem record_redrawn : record (done.map (Performed.redrawn f)) = (record done).map (Event.redrawn f) := by
  simp [record, List.map_flatten, Performed.redrawn, Machine.redrawn, Function.comp_def]

/-! ## Debuggers draw every report -/

/-- The report with a view, which is its own if it has one. -/
def Report.viewed (r : Report) : Report := { r with view := some (r.view.getD ⟨0, []⟩) }

/-- Where no view is missing, every report has one. -/
theorem Transcript.drawn_of_map_redrawn (h : t.map (Event.redrawn Report.viewed) = t) : ∀ e ∈ t, e.Drawn := by
  intro e he
  rw [← h] at he
  obtain ⟨e, -, rfl⟩ := List.mem_map.1 he
  cases e with
  | state | step => rfl
  | _ => trivial

theorem viewed_report {t : Tape} (hs : s.view = some range) : (t.report s.view).viewed = t.report s.view := by
  rw [hs]
  rfl

theorem drawn_of_session (hs : s.view = some range) (hops : ∀ op ∈ ops, op ≠ .window)
    (h : session s m ops = some done) : ∀ e ∈ record done, e.Drawn := by
  have hsame : some done = some (done.map (Performed.redrawn Report.viewed)) := calc
    some done = session s (m.redrawn Report.viewed) ops := h.symm.trans (session_of_quiet_eq rfl)
    _ = (session s m ops).map (List.map (Performed.redrawn Report.viewed)) :=
      session_redrawn (fun _ => viewed_report hs) hops
    _ = some (done.map (Performed.redrawn Report.viewed)) := congrArg _ h
  refine Transcript.drawn_of_map_redrawn ?_
  rw [← record_redrawn, ← Option.some.inj hsame]

namespace Run

variable {p : Program} {n : Nat} {r : Run}

theorem machine_retold {g : Machine → Machine} : (r.retold g).machine = g r.machine := by
  cases r <;> rfl

theorem drawn_of_steps (hs : s.view = some range) :
    ∀ e ∈ (steps s p n (.going 0 (m.quiet.inside []))).machine.log, e.Drawn := by
  -- the run begins with an empty transcript, so its first machine is its own retelling
  have hsame : steps s p n (.going 0 (m.quiet.inside [])) =
      (steps s p n (.going 0 (m.quiet.inside []))).retold (redrawn Report.viewed) :=
    (retelling_redrawn fun _ => viewed_report hs).steps (r := .going 0 (m.quiet.inside []))
  have hlog := congrArg (fun r => r.machine.log) hsame
  rw [machine_retold] at hlog
  exact Transcript.drawn_of_map_redrawn hlog.symm

end Run

/-! ## Machines with and without a view -/

/-- A debugger is a machine with a view. Whatever is done with it, but to ask for
its window, a plain machine does as well, with the same answers and refusals,
and after each operation with the same tape, loops, input left and counters,
and with the same events but for the views in its reports; and the one ends
every run that the other does. So of any operations in a row they print the
same output and call their streams in the same order, and the messages of
the debugger are those of the plain machine once the views are taken out.
The same holds at every step of a run that follows, even if it never ends. -/
theorem debugger_is_machine_with_view {debug : Bool} {pause : Pause} {requested : Int}
    (hops : ∀ op ∈ ops, op ≠ .window) :
    let debugger : Setup := ⟨debug, some (Window.rangeOf requested), pause⟩
    let plain : Setup := ⟨debug, none, pause⟩
    session plain m ops = (session debugger m ops).map (List.map Performed.unwindowed) ∧
    ∀ done, session debugger m ops = some done →
      (∀ j k, (record ((done.take k).drop j)).LosesViews (record (((done.map Performed.unwindowed).take k).drop j))) ∧
      ∀ p n, let r := steps debugger p n (.going 0 ((m.afterAll done).quiet.inside []))
        steps plain p n (.going 0 ((m.afterAll done).quiet.inside [])) = r.retold Machine.unwindowed ∧
        (r.machine.log ++ record done).LosesViews
          (r.machine.unwindowed.log ++ record (done.map Performed.unwindowed)) := by
  intro debugger plain
  have hf (t : Tape) : (t.report debugger.view).unwindowed = t.report none := rfl
  have hretelling : Retelling debugger plain Machine.unwindowed := retelling_redrawn (s := debugger) hf
  have hsession : session plain m.unwindowed ops = (session debugger m ops).map (List.map Performed.unwindowed) :=
    session_redrawn (s := debugger) hf hops
  have hstart : session plain m ops = session plain m.unwindowed ops := session_of_quiet_eq rfl
  refine ⟨hstart.trans hsession, fun done h => ?_⟩
  have hdrawn := drawn_of_session rfl hops h
  refine ⟨fun j k => ?_, fun p n => ?_⟩
  · have hstretch : record (((done.map Performed.unwindowed).take k).drop j) =
        (record ((done.take k).drop j)).map Event.unwindowed := by
      rw [← List.map_take, ← List.map_drop]
      exact record_redrawn
    rw [hstretch]
    refine Transcript.losesViews_unwindowed fun e he => ?_
    obtain ⟨d, hd, he⟩ := mem_record.1 he
    exact hdrawn e (mem_record.2 ⟨d, List.mem_of_mem_take (List.mem_of_mem_drop hd), he⟩)
  · intro r
    have hr : ∀ e ∈ r.machine.log, e.Drawn := Run.drawn_of_steps rfl
    refine ⟨hretelling.steps (r := .going 0 ((m.afterAll done).quiet.inside [])), ?_⟩
    have hrecord : record (done.map Performed.unwindowed) = (record done).map Event.unwindowed := record_redrawn
    have hall := Transcript.losesViews_unwindowed (List.forall_mem_append.2 ⟨hr, hdrawn⟩)
    rw [List.map_append, ← hrecord] at hall
    exact hall

/-- The report of a `#` comes on the line of a prompt, and loses its view all the same. -/
theorem report_behind_prompt_loses_view :
    ∃ done, session ⟨true, some (Window.rangeOf 2), .prompt⟩ (.start (.blank 3 (by decide)) [10]) [.run #['+', '#']] =
        some done ∧
      (record done).textOn .diagnostics =
        "\nCurrent: +, next: #\nPtr: 0, value: 1\nMemory:   [  1|  0]\nPointer:    ^     \nAddress:     0   1\n" ++
          "Press return to continue.Ptr: 0, value: 1\nMemory:   [  1|  0]\nPointer:    ^     \nAddress:     0   1\n" ∧
      withoutViews ((record done).textOn .diagnostics) =
        some "\nCurrent: +, next: #\nPtr: 0, value: 1\nPress return to continue.Ptr: 0, value: 1\n" := by
  have hops : ∀ op ∈ [Operation.run #['+', '#']], op ≠ .window := by simp
  have h : session ⟨true, some (Window.rangeOf 2), .prompt⟩ (.start (.blank 3 (by decide)) [10]) [.run #['+', '#']] =
      some _ := rfl
  have hviews := (((debugger_is_machine_with_view hops).2 _ h).1 0 1).messages
  refine ⟨_, h, ?_, hviews.trans (congrArg some ?_)⟩
  · decide +kernel
  · decide +kernel

end TapeMachine
