/-
What a machine has counted is what it has noted. Whatever a machine does, it
adds to its transcript, and its counters go up by what it adds: by the
characters written, the items read and the complaints (`Machine.Accounts`).
Whoever takes the items of the input, those taken and those left are always
all of them, and nobody complains who could have read.
-/
import TapeMachine.Proofs.Trace

namespace TapeMachine

open Machine Run Program

variable {s : Setup} {p : Program} {i j n : Nat} {m m₁ m₂ m' : Machine} {r : Run} {t t₁ t₂ u : Transcript}
  {e : Ending}

/-! ## Readings of a transcript -/

namespace Transcript

/-- The characters written, in order. -/
def written (t : Transcript) : List Char :=
  t.reverse.filterMap fun
    | .put c => some c
    | _ => none

/-- The items of input taken as acknowledgements of pauses, in order. -/
def acknowledged (t : Transcript) : List UInt8 :=
  t.reverse.filterMap fun
    | .acknowledge item => item
    | _ => none

theorem written_append : written (t ++ u) = written u ++ written t := by
  simp [written]

theorem acknowledged_append : acknowledged (t ++ u) = acknowledged u ++ acknowledged t := by
  simp [acknowledged]

end Transcript

/-! ## Accounts -/

/-- From the one machine to the other `t` was done, and all of it was counted. -/
structure Machine.Accounts (m : Machine) (t : Transcript) (m' : Machine) : Prop where
  unread : m.unread = t.itemsTaken ++ m'.unread
  writes : m'.tally.writes = m.tally.writes + t.written.length
  reads : m'.tally.reads = m.tally.reads + t.itemsRead.length
  readErrors : m'.tally.readErrors = m.tally.readErrors + t.count .noInput
  steps : m.tally.steps ≤ m'.tally.steps
  bytes : ∀ c ∈ t.written, c.toNat < 256
  /-- Before a complaint, all of the input is taken. -/
  exhausted : ∀ u : Transcript, .noInput :: u <:+ t → u.itemsTaken = m.unread

namespace Machine

/-- Where nothing is noted, nothing is counted but steps. -/
theorem Accounts.still (hu : m'.unread = m.unread) (hw : m'.tally.writes = m.tally.writes)
    (hr : m'.tally.reads = m.tally.reads) (he : m'.tally.readErrors = m.tally.readErrors)
    (hs : m.tally.steps ≤ m'.tally.steps) : m.Accounts [] m' :=
  ⟨hu.symm, hw, hr, he, hs, nofun, fun u h => by cases List.suffix_nil.1 h⟩

theorem Accounts.refl : m.Accounts [] m := .still rfl rfl rfl rfl (Nat.le_refl _)

theorem Accounts.trans (h₁ : m.Accounts t₁ m₁) (h₂ : m₁.Accounts t₂ m₂) : m.Accounts (t₂ ++ t₁) m₂ where
  unread := by rw [h₁.unread, h₂.unread, Transcript.itemsTaken_append, List.append_assoc]
  writes := by rw [h₂.writes, h₁.writes, Transcript.written_append, List.length_append, Nat.add_assoc]
  reads := by rw [h₂.reads, h₁.reads, Transcript.itemsRead_append, List.length_append, Nat.add_assoc]
  readErrors := by rw [h₂.readErrors, h₁.readErrors, List.count_append, Nat.add_assoc, Nat.add_comm (t₁.count _)]
  steps := Nat.le_trans h₁.steps h₂.steps
  bytes c hc := by
    rw [Transcript.written_append] at hc
    exact (List.mem_append.1 hc).elim (h₁.bytes c) (h₂.bytes c)
  exhausted u hu := by
    rcases List.suffix_or_suffix_of_suffix hu (List.suffix_append t₂ t₁) with hu₁ | hu₁
    · exact h₁.exhausted u hu₁
    · rcases List.suffix_cons_iff.1 hu₁ with rfl | ⟨v, rfl⟩
      · exact h₁.exhausted u (List.suffix_refl _)
      · obtain ⟨w, hw⟩ := hu
        have hv : .noInput :: v <:+ t₂ := ⟨w, List.append_cancel_right (by rw [List.append_assoc]; exact hw)⟩
        rw [Transcript.itemsTaken_append, h₂.exhausted v hv, h₁.unread]

/-- Of the first machine only the input and the counters matter. -/
theorem Accounts.of_eq (h : m.Accounts t m') (hu : m₁.unread = m.unread) (ht : m₁.tally = m.tally) :
    m₁.Accounts t m' :=
  ⟨hu.trans h.unread, ht ▸ h.writes, ht ▸ h.reads, ht ▸ h.readErrors, ht ▸ h.steps, h.bytes, hu ▸ h.exhausted⟩

/-- Nobody complains in these events. -/
theorem exhausted_of_not_mem {x : List UInt8} (h : .noInput ∉ t) :
    ∀ u : Transcript, .noInput :: u <:+ t → u.itemsTaken = x :=
  fun _ hu => absurd (hu.subset List.mem_cons_self) h

/-! ## Steps -/

theorem exists_accounts_of_readItem : ∃ t, m.readItem.2.log = t ++ m.log ∧ m.Accounts t m.readItem.2 := by
  unfold readItem
  cases hu : m.unread with
  | nil =>
    refine ⟨[.noInput, .read none, .flush .output], rfl, hu, rfl, rfl, rfl, Nat.le_refl _, nofun, fun u h => ?_⟩
    obtain rfl : u = [.read none, .flush .output] := by simpa [List.suffix_cons_iff] using h
    exact hu.symm
  | cons b rest =>
    exact ⟨[.read (some b), .flush .output], rfl, hu, rfl, rfl, rfl, Nat.le_refl _, nofun,
      exhausted_of_not_mem (by simp)⟩

theorem exists_accounts_of_obey {c : Plain} (h : m.obey s c = .ok m') :
    ∃ t, m'.log = t ++ m.log ∧ m.Accounts t m' := by
  have ho := m.obeys (s := s) (c := c)
  rw [h] at ho
  generalize Command.ofChar? c.1 = cmd at ho
  cases ho with
  | comment | right | left | increment | decrement => exact ⟨[], rfl, .still rfl rfl rfl rfl (Nat.le_succ _)⟩
  | put =>
    refine ⟨[.put (Char.ofUInt8 m.tape.cell)], rfl, rfl, rfl, rfl, rfl, Nat.le_succ _, fun c hc => ?_,
      exhausted_of_not_mem (by simp)⟩
    obtain rfl := List.mem_singleton.1 hc
    exact m.tape.cell.toNat_lt
  | get =>
    obtain ⟨t, ht, ha⟩ := m.exists_accounts_of_readItem
    exact ⟨t, ht, ha.unread, ha.writes, ha.reads, ha.readErrors, Nat.le_succ_of_le ha.steps, ha.bytes, ha.exhausted⟩
  | report =>
    exact ⟨[.state (m.tape.report s.view)], rfl, rfl, rfl, rfl, rfl, Nat.le_succ _, nofun,
      exhausted_of_not_mem (by simp)⟩

theorem exists_accounts_of_pause : ∃ t, (m.pause s).2.log = t ++ m.log ∧ m.Accounts t (m.pause s).2 := by
  unfold pause
  split
  · refine ⟨[.acknowledge m.unread.head?, .flush .diagnostics, .flush .output, .prompt], rfl, ?_, rfl, rfl, rfl,
      Nat.le_refl _, nofun, exhausted_of_not_mem (by simp)⟩
    cases hu : m.unread <;> rfl
  · exact ⟨[], rfl, .refl⟩
  · exact ⟨[.observed m.snapshot], rfl, rfl, rfl, rfl, rfl, Nat.le_refl _, nofun, exhausted_of_not_mem (by simp)⟩
  · refine ⟨[.observed m.snapshot], ?_⟩
    dsimp only [note]
    split <;> exact ⟨rfl, rfl, rfl, rfl, rfl, Nat.le_refl _, nofun, exhausted_of_not_mem (by simp)⟩

end Machine

theorem Dispatch.exists_accounts {c : Char} (hd : Dispatch s p i m c (.ok (j, m'))) :
    ∃ t, m'.log = t ++ m.log ∧ m.Accounts t m' := by
  cases hd with
  | plain ho => exact exists_accounts_of_obey ho
  | enter | skip | leave | back => exact ⟨[], rfl, .still rfl rfl rfl rfl (Nat.le_succ _)⟩

namespace Run

theorem exists_accounts_of_afterStep {c : Char} :
    ∃ t, (afterStep s p c j m).machine.log = t ++ m.log ∧ m.Accounts t (afterStep s p c j m).machine := by
  unfold afterStep
  split
  · cases p[j]? with
    | none => exact ⟨[], rfl, .refl⟩
    | some d =>
      have hnote : m.Accounts [.step c d (m.tape.report s.view)] (m.note (.step c d (m.tape.report s.view))) :=
        ⟨rfl, rfl, rfl, rfl, Nat.le_refl _, nofun, exhausted_of_not_mem (by simp)⟩
      obtain ⟨t, ht, ha⟩ := exists_accounts_of_pause (s := s) (m := m.note (.step c d (m.tape.report s.view)))
      refine ⟨t ++ [.step c d (m.tape.report s.view)], ?_⟩
      have hboth := And.intro (ht.trans (List.append_cons t _ m.log)) (hnote.trans ha)
      dsimp only
      generalize (m.note _).pause s = x at hboth ⊢
      obtain ⟨f, m'⟩ := x
      cases f <;> exact hboth
  · exact ⟨[], rfl, .refl⟩

theorem exists_accounts_of_step :
    ∃ t, (step s p r).machine.log = t ++ r.machine.log ∧ r.machine.Accounts t (step s p r).machine := by
  cases r with
  | ended f m => exact ⟨[], rfl, .refl⟩
  | going i m =>
    rcases step_cases (s := s) (p := p) (i := i) (m := m) with ⟨-, he⟩ | ⟨c, e, -, hd, he⟩
    · rw [he]
      exact ⟨[], rfl, .refl⟩
    · rw [he]
      cases e with
      | error f => exact ⟨[], rfl, .refl⟩
      | ok e =>
        obtain ⟨t₁, ht₁, ha₁⟩ := hd.exists_accounts
        obtain ⟨t₂, ht₂, ha₂⟩ := exists_accounts_of_afterStep (s := s) (p := p) (c := c) (j := e.1) (m := e.2)
        exact ⟨t₂ ++ t₁, by rw [resume, ht₂, ht₁, List.append_assoc]; rfl, ha₁.trans ha₂⟩

/-- Steps account for what they put in the transcript, which stands before what was there. -/
theorem exists_accounts_of_steps :
    ∃ t, (steps s p n r).machine.log = t ++ r.machine.log ∧ r.machine.Accounts t (steps s p n r).machine := by
  induction n generalizing r with
  | zero => exact ⟨[], rfl, .refl⟩
  | succ n ih =>
    obtain ⟨t₁, ht₁, ha₁⟩ := exists_accounts_of_step (s := s) (p := p) (r := r)
    obtain ⟨t₂, ht₂, ha₂⟩ := ih (r := step s p r)
    exact ⟨t₂ ++ t₁, by rw [steps_succ, ht₂, ht₁, List.append_assoc], ha₁.trans ha₂⟩

theorem exists_log_of_steps : ∃ t, (steps s p n r).machine.log = t ++ r.machine.log :=
  exists_accounts_of_steps.imp fun _ h => h.1

end Run

namespace Machine

theorem exists_accounts_of_run (h : m.run s p = some e) : ∃ t, e.machine.log = t ++ m.log ∧ m.Accounts t e.machine := by
  obtain ⟨n, hn⟩ := exists_steps_of_run h
  obtain ⟨t, ht, ha⟩ := exists_accounts_of_steps (s := s) (p := p) (n := n) (r := .going 0 (m.inside []))
  rw [hn] at ht ha
  exact ⟨t, ht, ha.of_eq rfl rfl⟩

theorem exists_log_of_run (h : m.run s p = some e) : ∃ t, e.machine.log = t ++ m.log :=
  (exists_accounts_of_run h).imp fun _ h => h.1

/-- A run takes from the front of the input what it has noted. -/
theorem unread_of_run (h : m.run s p = some e) (ht : e.machine.log = t ++ m.log) :
    m.unread = t.itemsTaken ++ e.machine.unread := by
  obtain ⟨t', ht', ha⟩ := exists_accounts_of_run h
  obtain rfl : t' = t := List.append_cancel_right (ht'.symm.trans ht)
  exact ha.unread

end Machine
end TapeMachine
