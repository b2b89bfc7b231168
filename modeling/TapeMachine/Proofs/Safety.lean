/-
What a session never does. Whatever operations are done, and whether they
succeed or not, the tape keeps its size and the head stays on it, and the
entered loops are loops of the program that was run last, outer ones before
inner ones (`Machine.Safe`). A run fails in four ways only and tells the
truth about each (`Fault.Arises`). It looks at nothing outside its program
(`Run.lookups`), and its reports at nothing off the tape.
-/
import TapeMachine.Proofs.Sessions

namespace TapeMachine

open Machine Run Program

variable {s : Setup} {p p' : Program} {i n : Nat} {m m' : Machine} {op : Operation} {ops : List Operation}
  {done : List Performed}

/-- What holds of a machine on a tape of `n` cells at any time, `p` being the
program that it ran last. -/
structure Machine.Safe (s : Setup) (n : Nat) (p : Program) (m : Machine) : Prop where
  size : m.tape.size = n
  head : m.tape.head < n
  values : ∀ i, (m.tape.value i).toNat ≤ 255
  window : ∀ range, s.view = some range → (m.tape.window range).start ≤ (m.tape.window range).stop ∧
    (m.tape.window range).stop ≤ n
  ordered : m.loops.reverse.Pairwise (· < ·)
  enters : ∀ k ∈ m.loops, p[k]? = some '['

/-- What a fault says is so. -/
def Fault.Arises (s : Setup) (n : Nat) (p : Program) (m : Machine) : Fault → Prop
  | .overflow x => (x = -1 ∧ m.tape.head = 0) ∨ (x = n ∧ m.tape.head + 1 = n)
  | .unclosed position => ∃ i : Nat, position = i ∧ p[i]? = some '['
  | .unopened position => p[position]? = some ']'
  | .interrupted => s.debug = true ∧ ∃ limit, s.pause = .observe (some limit)

/-- What holds of a run of `p`, wherever it stands. -/
def Run.Safe (s : Setup) (n : Nat) (p : Program) : Run → Prop
  | .going i m => m.Safe s n p ∧ i ≤ p.size
  | .ended none m => m.Safe s n p
  | .ended (some f) m => m.Safe s n p ∧ f.Arises s n p m

/-! ## Machines -/

theorem Tape.window_bounds {t : Tape} {range : Nat} :
    (t.window range).start ≤ (t.window range).stop ∧ (t.window range).stop ≤ t.size := by
  unfold window
  dsimp only
  split
  · exact ⟨Nat.sub_le _ _, Nat.min_le_left _ _⟩
  · have hstart : t.head - range / 2 ≤ t.size := Nat.le_trans (Nat.sub_le _ _) (Nat.le_of_lt t.head_lt)
    exact ⟨Nat.le_min.2 ⟨hstart, Nat.le_add_right _ _⟩, Nat.min_le_left _ _⟩

theorem Tape.size_seek {t : Tape} : ((t.seek? i).getD t).size = t.size := by
  unfold seek?
  split <;> rfl

theorem Tape.size_poke {t : Tape} {v : UInt8} : ((t.poke? i v).getD t).size = t.size := by
  unfold poke?
  split
  · simp [size]
  · rfl

theorem Machine.safe_of_size (hs : m.tape.size = n) (ho : m.loops.Pairwise (· > ·))
    (he : ∀ k ∈ m.loops, p[k]? = some '[') : m.Safe s n p where
  size := hs
  head := hs ▸ m.tape.head_lt
  values i := Nat.le_of_lt_succ (m.tape.value i).toNat_lt
  window _ _ := hs ▸ Tape.window_bounds
  ordered := List.pairwise_reverse.2 ho
  enters := he

/-- Only the size of the tape and the loops matter. -/
theorem Machine.Safe.keep (h : m.Safe s n p) (hs : m'.tape.size = m.tape.size) (hl : m'.loops = m.loops) :
    m'.Safe s n p :=
  safe_of_size (hs.trans h.size) (hl ▸ List.pairwise_reverse.1 h.ordered) (hl ▸ h.enters)

/-! ## Runs -/

theorem Machine.Reaches.safe (h : m.Reaches p i m') (hs : m.tape.size = n) : m'.Safe s n p :=
  safe_of_size (h.size.trans hs) (h.loops ▸ openLoops_pairwise) fun _ hk =>
    (enter_of_mem_openLoops (h.loops ▸ hk)).2

theorem Machine.arises_of_obey {c : Plain} {f : Fault} (h : m.obey s c = .error f) : f.Arises s m.tape.size p m := by
  have ho := m.obeys (s := s) (c := c)
  rw [h] at ho
  generalize Command.ofChar? c.1 = cmd at ho
  cases ho with
  | pastRight ht =>
    have hhead := Tape.right?_eq_none_iff.1 ht
    exact Or.inr ⟨by omega, hhead⟩
  | pastLeft ht =>
    have hhead := Tape.left?_eq_none_iff.1 ht
    exact Or.inl ⟨by omega, hhead⟩

theorem Dispatch.arises {c : Char} {f : Fault} (hc : p[i]? = some c) (hd : Dispatch s p i m c (.error f)) :
    f.Arises s m.tape.size p m := by
  cases hd with
  | fault ho => exact arises_of_obey ho
  | unclosed => exact ⟨i, rfl, hc⟩
  | unopened => exact hc

/-- A run is safe at every step, also one that never ends. -/
theorem Run.safe_steps {k : Nat} (hs : m.tape.size = n) : (steps s p k (.going 0 (m.inside []))).Safe s n p := by
  have hw : Within p m (steps s p k (.going 0 (m.inside []))) := Within.steps Reaches.refl
  cases hr : steps s p k (.going 0 (m.inside [])) with
  | going i m' =>
    rw [hr] at hw
    exact ⟨hw.safe hs, hw.le⟩
  | ended f m' =>
    rw [hr] at hw
    cases f with
    | none => exact hw.safe hs
    | some f =>
      obtain ⟨i, hreach⟩ := hw
      refine ⟨hreach.safe hs, ?_⟩
      obtain ⟨_, j, m₁, hk, hlast⟩ := exists_last_step hr
      rcases ended_cases hlast with ⟨hf, -⟩ | ⟨c, g, hf, hc, hd, hm⟩ | ⟨c, _, _, hf, -, -, -, -, hdebug, hpause⟩
      · cases hf
      · cases hf
        rw [← hs, ← (reaches_of_steps hk).size, hm]
        exact hd.arises hc
      · cases hf
        exact ⟨hdebug, _, hpause⟩

theorem Machine.safe_of_run {e : Ending} (hs : m.tape.size = n) (h : m.run s p = some e) :
    (Run.ended e.fault e.machine).Safe s n p := by
  obtain ⟨k, hk⟩ := exists_steps_of_run h
  rw [← hk]
  exact safe_steps hs

/-! ## What a run looks at -/

/-- The positions that the search for the end of a loop looks at; it stops where
no loop is open any more. -/
def Program.searched (p : Program) (depth : Nat) (j : Int) : Nat → List Int
  | 0 => []
  | n + 1 =>
    let depth' := depthAfter depth (p.charAt? j)
    j :: if depth' = 0 then [] else p.searched depth' (j + 1) n

/-- The positions of the program that a step looks at: the cursor, those that a
search passes, and the next one if a report is to name it. -/
def Run.lookups (s : Setup) (p : Program) : Run → List Int
  | .ended _ _ => []
  | .going i m =>
    match p[i]? with
    | none => []
    | some c =>
      let passed := if c = '[' ∧ m.tape.cell = 0 then p.searched 1 (i + 1) (p.size - (i + 1) : Int).toNat else []
      let named := match m.act s p i (Command.ofChar? c) with
        | (.ok j, _) => if s.debug ∧ j < p.size then [(j : Int)] else []
        | (.error _, _) => []
      i :: (passed ++ named)

theorem Program.searched_bounds {depth k : Nat} {j x : Int} (h : x ∈ p.searched depth j k) : j ≤ x ∧ x < j + k := by
  induction k generalizing depth j with
  | zero => cases h
  | succ k ih =>
    rw [searched] at h
    rcases List.mem_cons.1 h with rfl | h
    · omega
    · split at h
      · cases h
      · have := ih h
        omega

theorem Run.lookups_bounds {r : Run} {x : Int} (h : x ∈ r.lookups s p) : 0 ≤ x ∧ x < p.size := by
  unfold lookups at h
  split at h
  · cases h
  · next i m =>
    split at h
    · cases h
    · next c hc =>
      have hi := lt_size hc
      rcases List.mem_cons.1 h with rfl | h
      · omega
      · rcases List.mem_append.1 h with h | h
        · split at h
          · have := searched_bounds h
            omega
          · cases h
        · split at h
          · split at h
            · next hj =>
              rw [List.mem_singleton] at h
              omega
            · cases h
          · cases h

theorem Program.closeFrom_congr {q : Program} {depth k : Nat} {j : Int}
    (h : ∀ x ∈ p.searched depth j k, q.charAt? x = p.charAt? x) : q.closeFrom depth j k = p.closeFrom depth j k := by
  induction k generalizing depth j with
  | zero => rfl
  | succ k ih =>
    rw [searched] at h
    rw [closeFrom, closeFrom, h j List.mem_cons_self]
    split
    · rfl
    · next hd => exact ih fun x hx => h x (List.mem_cons_of_mem _ (by rwa [if_neg hd]))

/-- A command that skips a loop is the only one to look at the program. -/
theorem Machine.act_congr {q : Program} {cmd : Option Command}
    (h : cmd = some .enter → m.tape.cell = 0 → q.close? (i + 1) = p.close? (i + 1)) :
    m.act s q i cmd = m.act s p i cmd := by
  cases cmd with
  | none => rfl
  | some cmd =>
    cases cmd with
    | enter =>
      by_cases hz : m.tape.cell = 0
      · simp only [act, if_pos hz, h rfl hz]
      · simp only [act, if_neg hz]
    | right | left | increment | decrement | put | get | leave | report => rfl

/-- A step looks at nothing else: in any program with the same characters at
these positions it is the same step. -/
theorem Run.step_congr {q : Program} {r : Run} (hsize : q.size = p.size)
    (h : ∀ x ∈ r.lookups s p, q.charAt? x = p.charAt? x) : step s q r = step s p r := by
  cases r with
  | ended f m => rfl
  | going i m =>
    cases hc : p[i]? with
    | none =>
      rw [step_past hc, step_past (Array.getElem?_eq_none (hsize ▸ Array.getElem?_eq_none_iff.1 hc))]
    | some c =>
      simp only [lookups, hc, List.mem_cons, List.mem_append] at h
      have hq : q[i]? = some c := by
        rw [← charAt?_natCast, h i (.inl rfl), charAt?_natCast, hc]
      have hact : m.act s q i (Command.ofChar? c) = m.act s p i (Command.ofChar? c) := by
        refine act_congr fun he hz => ?_
        obtain rfl : c = '[' := Command.ofChar?_eq_some_iff.1 he
        rw [close?, close?, hsize]
        refine closeFrom_congr fun x hx => h x (.inr (.inl ?_))
        rwa [if_pos ⟨rfl, hz⟩]
      simp only [step, hc, hq, hact]
      split
      · rfl
      · next j m' he =>
        rw [he] at h
        unfold afterStep
        split
        · next hd =>
          have hj : q[j]? = p[j]? := by
            by_cases hj : j < p.size
            · rw [← charAt?_natCast, h j (.inr (.inr ?_)), charAt?_natCast]
              simp [hd, hj]
            · rw [Array.getElem?_eq_none (by omega), Array.getElem?_eq_none (by omega)]
          rw [hj]
        · rfl

/-! ## Sessions -/

/-- The program that the last run among some operations was of. -/
def lastRun (p : Program) (ops : List Operation) : Program := (ops.filterMap Operation.program?).getLastD p

theorem lastRun_cons : lastRun p (op :: ops) = lastRun (op.program?.getD p) ops := by
  unfold lastRun
  cases h : op.program? with
  | none => rw [List.filterMap_cons_none h]; rfl
  | some q => rw [List.filterMap_cons_some h, List.getLastD_cons]; rfl

theorem Machine.Safe.perform {a : Except Refusal Answer} (h : m.Safe s n p) (hp : m.perform s op = some (a, m')) :
    m'.Safe s n (op.program?.getD p) := by
  have hrun {q : Program} (hq : op.program? = some q) : m'.Safe s n q := by
    rw [perform_of_program hq] at hp
    obtain ⟨⟨f, m₁⟩, he, heq⟩ := Option.map_eq_some_iff.1 hp
    cases heq
    have hsafe := safe_of_run h.size he
    cases f with
    | none => exact hsafe
    | some f => exact hsafe.1
  cases op with
  | run q => exact hrun rfl
  | runBytes bytes => exact hrun rfl
  | close q start =>
    cases hp
    exact h
  | read =>
    cases hp
    exact h.keep (congrArg Tape.size tape_readItem) loops_readItem
  | report =>
    cases hp
    exact h.keep rfl rfl
  | pause =>
    cases hp
    exact h.keep (congrArg Tape.size pause_paused.tape) pause_paused.loops
  | window =>
    cases hp
    exact h
  | seek i =>
    cases hp
    exact h.keep Tape.size_seek rfl
  | poke i v =>
    cases hp
    exact h.keep Tape.size_poke rfl

theorem Machine.Safe.session {j : Nat} (h : m.Safe s n p) (hd : session s m ops = some done) :
    (m.afterAll (done.take j)).Safe s n (lastRun p (ops.take j)) := by
  induction ops generalizing m p done j with
  | nil =>
    cases hd
    rw [List.take_nil, List.take_nil]
    exact h
  | cons op ops ih =>
    rw [session_cons] at hd
    obtain ⟨x, hx, hd⟩ := Option.bind_eq_some_iff.1 hd
    obtain ⟨done', hdone, rfl⟩ := Option.map_eq_some_iff.1 hd
    cases j with
    | zero => exact h
    | succ j =>
      have hquiet : m.quiet.Safe s n p := h.keep rfl rfl
      rw [List.take_succ_cons, List.take_succ_cons, afterAll_cons, lastRun_cons]
      exact ih (hquiet.perform hx) hdone

/-- Whatever is done with a machine, it is safe. Operations on a blank tape of
`n` cells, those that fail among them, keep the tape, the head on it and its
values in bounds, and the entered loops, outermost first, are at ascending
positions of a `[` in the program run last. A run among them ends with no
fault or with one that tells the truth. And whatever is run next is safe at
every step, even if it never ends: its cursor is in the program or at its
end, and a step looks at some positions of the program and at nothing
outside, for it is the same step in any program that has the same characters
there. -/
theorem sessions_safe {hn : 0 < n} {input : List UInt8}
    (h : session s (start (.blank n hn) input) ops = some done) :
    (∀ j ≤ ops.length,
      ((start (.blank n hn) input).afterAll (done.take j)).Safe s n (lastRun #[] (ops.take j))) ∧
    (∀ (j : Nat) (op : Operation) (p : Program) (d : Performed), ops[j]? = some op → op.program? = some p →
      done[j]? = some d → d.answer = .ok .nothing ∨ ∃ f, d.answer = .error (.fault f) ∧ f.Arises s n p d.machine) ∧
    ∀ p k, let r := steps s p k (.going 0 (((start (.blank n hn) input).afterAll done).quiet.inside []))
      r.Safe s n p ∧ (∀ x ∈ r.lookups s p, 0 ≤ x ∧ x < p.size) ∧
      ∀ q : Program, q.size = p.size → (∀ x ∈ r.lookups s p, q.charAt? x = p.charAt? x) → step s q r = step s p r := by
  have hstart : (start (.blank n hn) input).Safe s n #[] :=
    safe_of_size (Tape.size_blank (h := hn)) .nil fun k hk => by cases hk
  refine ⟨fun j _ => hstart.session h, ?_, fun p k => ⟨?_, fun x => lookups_bounds, fun q => step_congr⟩⟩
  · intro j op p d hj hp hd
    obtain ⟨d', hd', hperform⟩ := exists_performed h hj
    obtain rfl : d = d' := Option.some.inj (hd.symm.trans hd')
    rw [perform_of_program hp] at hperform
    obtain ⟨⟨f, m'⟩, hrun, heq⟩ := Option.map_eq_some_iff.1 hperform
    obtain ⟨hanswer, hmachine⟩ := Prod.mk.inj heq
    have hsize : ((start (.blank n hn) input).afterAll (done.take j)).quiet.tape.size = n := (hstart.session h).size
    have hsafe := safe_of_run hsize hrun
    rw [← hanswer, ← hmachine]
    cases f with
    | none => exact .inl rfl
    | some f => exact .inr ⟨f, rfl, hsafe.2⟩
  · have hall := (hstart.session (j := done.length) h).size
    rw [List.take_length] at hall
    exact safe_steps hall

/-- A run that fails with a loop entered, and a pause after it. -/
theorem failed_run_is_safe :
    ∃ done, session { debug := true, view := some 3, pause := .silent } (start (.blank 2 (by decide)) [])
        [.run #['+', '[', '>', '>'], .pause] = some done ∧
      ((start (.blank 2 (by decide)) []).afterAll done).Safe { debug := true, view := some 3, pause := .silent } 2
        #['+', '[', '>', '>'] ∧
      ((start (.blank 2 (by decide)) []).afterAll done).loops = [1] := by
  have h : session { debug := true, view := some 3, pause := .silent } (start (.blank 2 (by decide)) [])
      [.run #['+', '[', '>', '>'], .pause] = some _ := rfl
  exact ⟨_, h, (sessions_safe h).1 2 (by decide), rfl⟩

end TapeMachine
