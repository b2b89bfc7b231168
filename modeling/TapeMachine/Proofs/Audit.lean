/-
The counters of a session against its record. Runs, reads, reports and pauses
all note what they do, and put together these transcripts account for the
counters at any time: the characters that were written, the items that were
taken, by the program or by a pause, and the complaints (`Machine.Audited`).
Steps are counted against the characters that the runs have done
(`counters_account_for_session`).
-/
import TapeMachine.Proofs.Sessions

namespace TapeMachine

open Machine Run Program

variable {s : Setup} {j k n : Nat} {m m' : Machine} {t : Transcript} {op : Operation}
  {ops : List Operation} {d : Performed} {done : List Performed}

/-! ## What was printed and taken -/

namespace Transcript

theorem textOn_output : t.textOn .output = String.ofList t.written := by
  induction t with
  | nil => rfl
  | cons e t ih =>
    have ht : textOn (e :: t) .output = _ := textOn_append (t := [e])
    have hw : written (e :: t) = _ := written_append (t := [e])
    rw [ht, hw, String.ofList_append, ih]
    cases e <;> simp [textOn, printed, written, List.filterMap_cons]

/-- Nothing else that is printed looks like a complaint. -/
theorem complaint_iff {e : Event} : e.printed = some (.diagnostics, "Error reading character\n") ↔ e = .noInput := by
  cases e with
  | state r =>
    have hr : r.text ≠ "Error reading character\n" := by
      intro h
      have hhead := r.head?_text
      rw [h] at hhead
      exact absurd hhead (by decide)
    simp [hr]
  | step c d r =>
    have hr : "\nCurrent: " ++ c.toString ++ ", next: " ++ d.toString ++ "\n" ++ r.text ≠
        "Error reading character\n" := by
      intro h
      have hhead := congrArg (·.toList.head?) h
      simp at hhead
    simpa using hr
  | _ => simp

theorem count_complaints : t.printed.count (.diagnostics, "Error reading character\n") = t.count .noInput := by
  rw [printed, List.count_filterMap, List.countP_reverse, List.count]
  refine List.countP_congr fun e _ => ?_
  rw [beq_iff_eq, beq_iff_eq, complaint_iff]

theorem length_itemsTaken : t.itemsTaken.length = t.itemsRead.length + t.acknowledged.length := by
  induction t with
  | nil => rfl
  | cons e t ih =>
    have ht : itemsTaken (e :: t) = _ := itemsTaken_append (t := [e])
    have hr : itemsRead (e :: t) = _ := itemsRead_append (t := [e])
    have ha : acknowledged (e :: t) = _ := acknowledged_append (t := [e])
    rw [ht, hr, ha]
    simp only [List.length_append, ih]
    cases e with
    | read item | acknowledge item =>
      cases item with
      | none => simp [itemsTaken, itemsRead, acknowledged]
      | some b => simp [itemsTaken, itemsRead, acknowledged]; omega
    | _ => simp [itemsTaken, itemsRead, acknowledged]

end Transcript

/-! ## Machines -/

/-- The counters of a machine that was given `input` and has done `t` say what is
in `t`, and of the input is left what is not. -/
structure Machine.Audited (input : List UInt8) (t : Transcript) (m : Machine) : Prop where
  writes : m.tally.writes = (t.textOn .output).length
  bytes : ∀ c ∈ (t.textOn .output).toList, c.toNat < 256
  consumed : input = t.itemsTaken ++ m.unread
  reads : t.itemsTaken.length = m.tally.reads + t.acknowledged.length
  readErrors : m.tally.readErrors = t.printed.count (.diagnostics, "Error reading character\n")
  /-- Before a complaint, all of the input is taken. -/
  exhausted : ∀ u : Transcript, .noInput :: u <:+ t → u.itemsTaken = input

/-- From the one machine to the other no counter goes down, and errors are only
counted if the input is used up. -/
structure Machine.Grows (m m' : Machine) : Prop where
  writes : m.tally.writes ≤ m'.tally.writes
  reads : m.tally.reads ≤ m'.tally.reads
  readErrors : m.tally.readErrors ≤ m'.tally.readErrors
  steps : m.tally.steps ≤ m'.tally.steps
  exhausted : m.tally.readErrors < m'.tally.readErrors → m'.unread = []

namespace Machine

theorem Accounts.audited {tape : Tape} {input : List UInt8} (h : (start tape input).Accounts t m) :
    m.Audited input t where
  writes := by rw [Transcript.textOn_output, String.length_ofList, h.writes]; exact Nat.zero_add _
  bytes := by rw [Transcript.textOn_output, String.toList_ofList]; exact h.bytes
  consumed := h.unread
  reads := by rw [Transcript.length_itemsTaken, h.reads]; exact congrArg (· + _) (Nat.zero_add _).symm
  readErrors := by rw [Transcript.count_complaints, h.readErrors]; exact Nat.zero_add _
  exhausted := h.exhausted

theorem Accounts.grows (h : m.Accounts t m') : m.Grows m' where
  writes := h.writes ▸ Nat.le_add_right _ _
  reads := h.reads ▸ Nat.le_add_right _ _
  readErrors := h.readErrors ▸ Nat.le_add_right _ _
  steps := h.steps
  exhausted hlt := by
    rw [h.readErrors] at hlt
    have hmem : Event.noInput ∈ t := List.count_pos_iff.1 (by omega)
    obtain ⟨v, u, rfl⟩ := List.append_of_mem hmem
    have hu := h.unread
    have hall : Transcript.itemsTaken (v ++ .noInput :: u) = Transcript.itemsTaken u ++ Transcript.itemsTaken v := by
      rw [Transcript.itemsTaken_append]
      simp [Transcript.itemsTaken]
    rw [hall, h.exhausted u (List.suffix_append v _), List.append_assoc] at hu
    exact (List.append_eq_nil_iff.1 (List.self_eq_append_right.1 hu)).2

/-- An operation accounts for its transcript. -/
theorem accounts_of_perform {answer : Except Refusal Answer} (h : m.quiet.perform s op = some (answer, m')) :
    m.Accounts m'.log m' := by
  have hdone {m' : Machine} (h : ∃ t, m'.log = t ++ m.quiet.log ∧ m.quiet.Accounts t m') : m.Accounts m'.log m' := by
    obtain ⟨t, ht, ha⟩ := h
    rw [ht, show m.quiet.log = [] from rfl, List.append_nil]
    exact ha.of_eq rfl rfl
  cases op with
  | run p =>
    obtain ⟨e, he, heq⟩ := Option.map_eq_some_iff.1 h
    cases heq
    exact hdone (exists_accounts_of_run he)
  | runBytes bytes =>
    obtain ⟨e, he, heq⟩ := Option.map_eq_some_iff.1 h
    cases heq
    exact hdone (exists_accounts_of_run he)
  | read =>
    cases h
    exact hdone exists_accounts_of_readItem
  | report =>
    cases h
    exact ⟨rfl, rfl, rfl, rfl, Nat.le_refl _, nofun, exhausted_of_not_mem (by simp [Machine.report, note, quiet])⟩
  | pause =>
    cases h
    exact hdone exists_accounts_of_pause
  | close | window | seek | poke =>
    cases h
    exact .still rfl rfl rfl rfl (Nat.le_refl _)

theorem steps_of_perform {answer : Except Refusal Answer} (hop : op.program? = none)
    (h : m.quiet.perform s op = some (answer, m')) : m'.tally.steps = m.tally.steps := by
  cases op with
  | run | runBytes => cases hop
  | read =>
    cases h
    exact steps_readItem (m := m.quiet)
  | pause =>
    cases h
    exact congrArg Tally.steps (pause_paused (m := m.quiet)).tally
  | close | report | window | seek | poke =>
    cases h
    rfl

end Machine

/-! ## Sessions -/

/-- From any operation of a session to any later one. -/
theorem Machine.accounts_of_session (h : session s m ops = some done) (hjk : j ≤ k) :
    (m.afterAll (done.take j)).Accounts (record ((done.take k).drop j)) (m.afterAll (done.take k)) := by
  induction ops generalizing m done j k with
  | nil =>
    cases h
    rw [List.take_nil, List.take_nil, List.drop_nil]
    exact .refl
  | cons op ops ih =>
    rw [session_cons] at h
    obtain ⟨x, hx, h⟩ := Option.bind_eq_some_iff.1 h
    obtain ⟨done', hdone, rfl⟩ := Option.map_eq_some_iff.1 h
    cases k with
    | zero =>
      obtain rfl := Nat.le_zero.1 hjk
      exact .refl
    | succ k =>
      cases j with
      | zero =>
        have hrest := ih hdone (Nat.zero_le k)
        rw [List.take_zero, List.drop_zero] at hrest
        rw [List.take_succ_cons, List.take_zero, List.drop_zero, record_cons, afterAll_cons]
        exact (accounts_of_perform hx).trans hrest
      | succ j =>
        rw [List.take_succ_cons, List.take_succ_cons, List.drop_succ_cons, afterAll_cons, afterAll_cons]
        exact ih hdone (Nat.le_of_succ_le_succ hjk)

/-- The counters account for all that a session does. After any of its operations,
those that fail among them, they say what is in the record: every character
written, all of them bytes; the items taken, which are the first of the input
in their order and were read or acknowledge a pause; and every complaint, for
which the input had to be used up. No counter ever goes down. Only runs count
steps, one for every character done but not for one that fails. And the same
holds at every step of a run that follows, even if it never ends. -/
theorem counters_account_for_session {hn : 0 < n} {input : List UInt8}
    (h : session s (start (.blank n hn) input) ops = some done) :
    (∀ j, ((start (.blank n hn) input).afterAll (done.take j)).Audited input (record (done.take j))) ∧
    (∀ j k, j ≤ k → ((start (.blank n hn) input).afterAll (done.take j)).Grows
      ((start (.blank n hn) input).afterAll (done.take k))) ∧
    (∀ j op d, ops[j]? = some op → done[j]? = some d →
      let before := (start (.blank n hn) input).afterAll (done.take j)
      (op.program? = none → d.machine.tally.steps = before.tally.steps) ∧
      ∀ p, op.program? = some p → ∃ t f, before.quiet.Ends s p t ⟨f, d.machine⟩ ∧ d.answer = Answer.ofFault f ∧
        d.machine.tally.steps + (if f = none ∨ f = some .interrupted then 0 else 1) =
          before.tally.steps + t.length) ∧
    ∀ p a b, a ≤ b →
      let before := (start (.blank n hn) input).afterAll done
      let r := fun k => steps s p k (.going 0 (before.quiet.inside []))
      (r a).machine.Grows (r b).machine ∧ (r b).machine.Audited input ((r b).machine.log ++ record done) ∧
      ∀ i m', r b = .going i m' →
        m'.tally.steps = before.tally.steps + (trace s p b (.going 0 (before.quiet.inside []))).length := by
  refine ⟨fun j => ?_, fun j k hjk => (accounts_of_session h hjk).grows, ?_, ?_⟩
  · have hall := accounts_of_session h (Nat.zero_le j)
    rw [List.take_zero, List.drop_zero] at hall
    exact hall.audited
  · intro j op d hj hd
    obtain ⟨d', hd', hperform⟩ := exists_performed h hj
    obtain rfl : d = d' := Option.some.inj (hd.symm.trans hd')
    refine ⟨fun hop => steps_of_perform hop hperform, fun p hop => ?_⟩
    rw [perform_of_program hop] at hperform
    obtain ⟨⟨f, m'⟩, hrun, heq⟩ := Option.map_eq_some_iff.1 hperform
    obtain ⟨hanswer, rfl⟩ := Prod.mk.inj heq
    obtain ⟨t, ht⟩ := exists_ends_of_run hrun
    exact ⟨t, f, ht, hanswer.symm, ht.counted⟩
  · intro p a b hab before r
    have hbefore := accounts_of_session h (Nat.zero_le done.length)
    rw [List.take_zero, List.drop_zero, List.take_length] at hbefore
    obtain ⟨c, rfl⟩ := Nat.exists_eq_add_of_le hab
    refine ⟨?_, ?_, fun i m' hr => ?_⟩
    · obtain ⟨t, -, ha⟩ := exists_accounts_of_steps (s := s) (p := p) (n := c) (r := r a)
      rw [← steps_add] at ha
      exact ha.grows
    · obtain ⟨t, ht, ha⟩ := exists_accounts_of_steps (s := s) (p := p) (n := a + c) (r := .going 0 (before.quiet.inside []))
      have hlog : (r (a + c)).machine.log = t := ht.trans (List.append_nil t)
      rw [hlog]
      exact (hbefore.trans (ha.of_eq rfl rfl)).audited
    · rw [length_trace_of_going hr]
      exact counted_of_going (m := before.quiet.inside []) hr

/-- Of two reads and two pauses the first read and the first pause obtain an item;
the other read is an error. -/
theorem pauses_compete_for_items :
    ∃ done, session { debug := true } (start (.blank 1 (by decide)) [65, 10]) [.run #[',', ',', '.']] = some done ∧
      ((start (.blank 1 (by decide)) [65, 10]).afterAll (done.take 1)).Audited [65, 10] (record (done.take 1)) ∧
      ((start (.blank 1 (by decide)) [65, 10]).afterAll (done.take 1)).tally = ⟨1, 1, 1, 3⟩ := by
  have h : session { debug := true } (start (.blank 1 (by decide)) [65, 10]) [.run #[',', ',', '.']] = some _ := rfl
  exact ⟨_, h, (counters_account_for_session h).1 1, rfl⟩

end TapeMachine
