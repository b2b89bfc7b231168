/-
What programs do to a tape. A program without `,` has nothing to do with the
input, so all there is to see of its run is a function of the tape that it
begins on (`Machine.map_effect_run`). Where its brackets are balanced, its
comments are no part of it (`effect_eq_of_marks`), and a text that is put
together of such programs does what they do one after the other
(`effect_flatten`).
-/
import TapeMachine.Proofs.Commands
import TapeMachine.Proofs.InputValues
import TapeMachine.Proofs.Structured

namespace TapeMachine

open Machine Run Program

variable {s : Setup} {p q : Program} {n : Nat} {m m' : Machine} {r : Run} {t : Tape}

/-- What there is to see of a run that has ended. -/
structure Effect where
  fault : Option Fault
  tape : Tape
  text : String

def Run.Ending.effect (e : Ending) : Effect := ⟨e.fault, e.machine.tape, e.machine.log.text⟩

/-- What a program does to a tape where there is no input; `none` if it never
ends. -/
def Program.effect (s : Setup) (p : Program) (t : Tape) : Option Effect := ((start t []).run s p).map Ending.effect

namespace Effect

/-- The effect with a text that was there before. -/
def behind (before : String) (e : Effect) : Effect := { e with text := before ++ e.text }

/-- What comes next, unless a fault is the end. -/
def andThen (e : Effect) (next : Tape → Option Effect) : Option Effect :=
  match e.fault with
  | some _ => some e
  | none => (next e.tape).map (behind e.text)

end Effect

/-- Programs one after the other on one tape, up to the first fault. -/
def effects (s : Setup) : List Program → Tape → Option Effect
  | [], t => some ⟨none, t, ""⟩
  | p :: ps, t => (p.effect s t).bind (·.andThen (effects s ps))

/-! ## No reads -/

theorem Run.mem_of_mem_trace {c : Char} (h : c ∈ trace s p n r) : c ∈ p.toList := by
  induction n generalizing r with
  | zero =>
    rw [trace_zero] at h
    cases h
  | succ n ih =>
    cases r with
    | ended f m =>
      rw [trace_ended] at h
      cases h
    | going i m =>
      rw [trace_going] at h
      rcases List.mem_append.1 h with h | h
      · rw [Option.mem_toList, ← Array.getElem?_toList] at h
        exact List.mem_of_getElem? h
      · exact ih h

/-- A run without `,` tries no reads and takes nothing. -/
theorem Machine.Ends.count_get {t : List Char} {e : Ending} (h : m.Ends s p t e) (hget : ',' ∉ p.toList) :
    t.count ',' = 0 := by
  obtain ⟨-, n, -, rfl⟩ := h
  exact List.count_eq_zero.2 fun hmem => hget (mem_of_mem_trace hmem)

theorem Machine.unread_of_run_without_get {e : Ending} (hs : s.debug = false) (hget : ',' ∉ p.toList)
    (h : m.run s p = some e) : e.machine.unread = m.unread := by
  obtain ⟨t, ht⟩ := exists_ends_of_run h
  rw [(ht.accounts hs).1.unread, ht.count_get hget, List.drop_zero]

/-- Machines with the same tape that have noted the same; the one has tried
`tries` reads. -/
structure Machine.Beside (tries : Nat) (m m' : Machine) : Prop where
  tape : m.tape = m'.tape
  loops : m.loops = m'.loops
  log : m.log = m'.log
  tries : m.tally.tries = tries

/-- Runs keep this while they try no more reads. -/
theorem Machine.Beside.lockstep {tries : Nat} :
    Lockstep s (fun run => run.machine.tally.tries ≤ tries) (Beside tries) where
  cell hr := congrArg Tape.cell hr.tape
  loops hr := hr.loops
  bracket hr := ⟨hr.tape, rfl, hr.log, hr.tries⟩
  plain {i m m' m₁ cmd} hr ho hok := by
    obtain ⟨ht, hl, hlog, htries⟩ := hr
    cases ho with
    | comment => exact ⟨_, .comment, ht, hl, hlog, htries⟩
    | right ho => exact ⟨_, .right (ht ▸ ho), rfl, hl, hlog, htries⟩
    | left ho => exact ⟨_, .left (ht ▸ ho), rfl, hl, hlog, htries⟩
    | increment => exact ⟨_, .increment, congrArg (fun t => t.write (t.cell + 1)) ht, hl, hlog, htries⟩
    | decrement => exact ⟨_, .decrement, congrArg (fun t => t.write (t.cell - 1)) ht, hl, hlog, htries⟩
    | put =>
      refine ⟨_, .put, ht, hl, ?_, htries⟩
      simp only [countStep, ht, hlog]
    | report =>
      refine ⟨_, .report, ht, hl, ?_, htries⟩
      simp only [countStep, Machine.report, note, ht, hlog]
    | get =>
      have hmore : m.tally.tries + 1 ≤ tries := by
        rw [← tries_readItem]
        exact hok
      omega
  fault {m m' f cmd} hr ho _ := by
    cases ho with
    | pastRight ho => rw [hr.tape] at ho ⊢; exact .pastRight ho
    | pastLeft ho => rw [hr.tape] at ho ⊢; exact .pastLeft ho

/-- On machines that look the same a run without `,` ends alike. -/
theorem Machine.exists_run_beside {e : Ending} (hs : s.debug = false) (hget : ',' ∉ p.toList)
    (htape : m.tape = m'.tape) (hlog : m.log = m'.log) (h : m.run s p = some e) :
    ∃ e', m'.run s p = some e' ∧ e'.effect = e.effect := by
  obtain ⟨u, hu⟩ := exists_ends_of_run h
  have hstart : Beside m.tally.tries (m.inside []) (m'.inside []) := ⟨htape, rfl, hlog, rfl⟩
  obtain ⟨m₁, hm₁, hr⟩ := Beside.lockstep.ends hs hstart hu fun k => by
    have hle := hu.tries_le hs k
    rwa [hu.count_get hget, Nat.add_zero] at hle
  refine ⟨_, hm₁.run, ?_⟩
  rw [Ending.effect, Ending.effect, hr.tape, hr.log]

/-- The effect of a program without `,` on a machine is its effect on the tape. -/
theorem Machine.map_effect_run (hs : s.debug = false) (hget : ',' ∉ p.toList) :
    (m.run s p).map Ending.effect = (p.effect s m.tape).map (Effect.behind m.log.text) := by
  have htape : m.quiet.tape = (start m.tape []).tape := rfl
  have hlog : m.quiet.log = (start m.tape []).log := rfl
  have hquiet : (m.quiet.run s p).map Ending.effect = p.effect s m.tape := by
    rw [Program.effect]
    cases h : m.quiet.run s p with
    | some e =>
      obtain ⟨e', h', heq⟩ := exists_run_beside hs hget htape hlog h
      rw [h', Option.map_some, Option.map_some, heq]
    | none =>
      cases h' : (start m.tape []).run s p with
      | none => rfl
      | some e' =>
        obtain ⟨e, he, -⟩ := exists_run_beside hs hget htape.symm hlog.symm h'
        rw [h] at he
        cases he
  have hlogged : m.run s p = (m.quiet.run s p).map fun e => ⟨e.fault, e.machine.logged m.log⟩ :=
    run_logged (m := m.quiet) (l := m.log)
  rw [← hquiet, hlogged, Option.map_map, Option.map_map]
  refine congrArg (fun f => Option.map f _) (funext fun e => ?_)
  simp only [Function.comp_apply, Ending.effect, Effect.behind, logged, Transcript.text_append]

/-! ## No comments -/

theorem nesting_filter {keep : Char → Bool} {t : List Char} {d : Nat} (he : keep '[' = true) (hl : keep ']' = true) :
    nesting d (t.filter keep) = nesting d t := by
  induction t generalizing d with
  | nil => rfl
  | cons c t ih =>
    rcases char_cases c with rfl | rfl | ⟨c, rfl⟩
    · rw [List.filter_cons_of_pos he, nesting_enter, nesting_enter, ih]
    · rw [List.filter_cons_of_pos hl]
      cases d with
      | zero => rw [nesting_leave_zero, nesting_leave_zero]
      | succ d => rw [nesting_leave_succ, nesting_leave_succ, ih]
    · rw [nesting_plain, List.filter_cons]
      split
      · rw [nesting_plain, ih]
      · exact ih

theorem balanced_filter_isMark {t : List Char} : Balanced (t.filter isMark) ↔ Balanced t := by
  rw [Balanced, Balanced, nesting_filter rfl rfl]

/-- The faults of balanced programs know no position. -/
theorem Block.overflow_of_run {b : Block} {f : Fault} (hs : s.debug = false) (hb : b.text = p.toList)
    (h : m.run s p = some ⟨some f, m'⟩) : ∃ place, f = .overflow place :=
  tame.fault (evaluates_of_run hs hb h).1

theorem effect_only (hs : s.debug = false) (hp : Balanced p.toList) :
    (p.only isMark).effect s t = p.effect s t := by
  have hkeep (c : Char) (hc : isCommand c = true) : isMark c = true := by simp [isMark, hc]
  obtain ⟨b, hb⟩ := balanced_iff.1 hp
  rw [Program.effect, Program.effect]
  rcases run_only (p := p) (m := start t []) hkeep hs with ⟨hn, hn'⟩ | ⟨_, e, e', h, h', hfault, hf⟩
  · rw [hn, hn']
  · have hsame : e.fault = e'.fault := by
      have hrun := h.run
      obtain ⟨f, m⟩ := e
      generalize e'.fault = f' at hfault
      cases hfault with
      | none => rfl
      | some hmatch =>
        obtain ⟨place, rfl⟩ := Block.overflow_of_run hs hb hrun
        cases hmatch
        rfl
    rw [h.run, h'.run, Option.map_some, Option.map_some, Ending.effect, Ending.effect, hsame, hf.tape, hf.exact rfl]

/-- Balanced programs with the same marks have the same effect. -/
theorem effect_eq_of_marks (hs : s.debug = false) (hp : Balanced p.toList)
    (hpq : p.toList.filter isMark = q.toList.filter isMark) : p.effect s t = q.effect s t := by
  have hq : Balanced q.toList := balanced_filter_isMark.1 (hpq ▸ balanced_filter_isMark.2 hp)
  rw [← effect_only hs hp, ← effect_only hs hq, Program.only, Program.only, hpq]

/-! ## One after the other -/

namespace Block

def append : Block → Block → Block
  | done, c => c
  | plain a rest, c => plain a (rest.append c)
  | loop body rest, c => loop body (rest.append c)

theorem text_append {b c : Block} : (b.append c).text = b.text ++ c.text := by
  induction b with
  | done => rfl
  | plain a rest ih => exact congrArg (a.1 :: ·) ih
  | loop body rest _ ih => simp [append, text, ih]

end Block

theorem then_assoc {R₁ R₂ R₃ : Machine → Ending → Prop} : Then R₁ (Then R₂ R₃) = Then (Then R₁ R₂) R₃ := by
  funext m e
  refine propext ⟨fun h => ?_, fun h => ?_⟩
  · cases h with
    | both h₁ h =>
      cases h with
      | both h₂ h₃ => exact .both (.both h₁ h₂) h₃
      | fault h₂ => exact .fault (.both h₁ h₂)
    | fault h₁ => exact .fault (.fault h₁)
  · cases h with
    | both h h₃ =>
      cases h with
      | both h₁ h₂ => exact .both h₁ (.both h₂ h₃)
    | fault h =>
      cases h with
      | both h₁ h₂ => exact .both h₁ (.fault h₂)
      | fault h₁ => exact .fault h₁

theorem then_done {R : Machine → Ending → Prop} : Then (Block.done.Evaluates s) R = R := by
  funext m e
  refine propext ⟨fun h => ?_, fun h => .both rfl h⟩
  cases h with
  | both h₁ h₂ =>
    cases h₁
    exact h₂
  | fault h₁ => cases h₁

namespace Block

variable {a b : Block} {x : Effect}

/-- A block after another is evaluated after it. -/
theorem evaluates_append : (a.append b).Evaluates s = Then (a.Evaluates s) (b.Evaluates s) := by
  induction a with
  | done => exact then_done.symm
  | plain c rest ih => exact (congrArg (Then _) ih).trans then_assoc
  | loop body rest _ ih => exact (congrArg (Then _) ih).trans then_assoc

theorem map_effect_run_eq_some_iff (hs : s.debug = false) (hb : b.text = p.toList) :
    (m.run s p).map Ending.effect = some x ↔ ∃ e, b.Evaluates s (m.inside []) e ∧ e.effect = x := by
  rw [Option.map_eq_some_iff]
  constructor
  · intro h
    obtain ⟨⟨f, m'⟩, hrun, rfl⟩ := h
    exact ⟨_, (evaluates_of_run hs hb hrun).1, rfl⟩
  · intro h
    obtain ⟨⟨f, m'⟩, he, rfl⟩ := h
    obtain ⟨l, hrun, -⟩ := run_of_evaluates hs hb he
    exact ⟨_, hrun, rfl⟩

end Block

/-- The effect of two texts put together. -/
theorem effect_append (hs : s.debug = false) (hp : Balanced p.toList) (hq : Balanced q.toList)
    (hget : ',' ∉ q.toList) : (p ++ q).effect s t = (p.effect s t).bind (·.andThen (q.effect s)) := by
  obtain ⟨a, ha⟩ := balanced_iff.1 hp
  obtain ⟨b, hb⟩ := balanced_iff.1 hq
  have hab : (a.append b).text = (p ++ q).toList := by rw [Block.text_append, ha, hb, Array.toList_append]
  ext x
  rw [Program.effect, Block.map_effect_run_eq_some_iff hs hab, Block.evaluates_append, Option.bind_eq_some_iff]
  have hstart (y : Effect) : p.effect s t = some y ↔ ∃ e, a.Evaluates s (start t []) e ∧ e.effect = y :=
    Block.map_effect_run_eq_some_iff hs ha
  -- the second block is evaluated where the first has ended, in no loop and with its transcript
  have hnext {m₁ : Machine} (h : a.Evaluates s (start t []) ⟨none, m₁⟩) :
      (Ending.effect ⟨none, m₁⟩).andThen (q.effect s) = some x ↔ ∃ e, b.Evaluates s m₁ e ∧ e.effect = x := by
    have hloops : m₁.inside [] = m₁ := inside_of_loops_eq (Block.tame.loops h)
    have heffect := Block.map_effect_run_eq_some_iff (m := m₁) (x := x) hs hb
    rwa [map_effect_run hs hget, hloops] at heffect
  constructor
  · intro h
    obtain ⟨e, he, rfl⟩ := h
    cases he with
    | both h₁ h₂ => exact ⟨_, (hstart _).2 ⟨_, h₁, rfl⟩, (hnext h₁).2 ⟨e, h₂, rfl⟩⟩
    | fault h₁ => exact ⟨_, (hstart _).2 ⟨_, h₁, rfl⟩, rfl⟩
  · intro h
    obtain ⟨y, hy, hx⟩ := h
    obtain ⟨⟨f, m₁⟩, h₁, rfl⟩ := (hstart y).1 hy
    cases f with
    | none =>
      obtain ⟨e, h₂, rfl⟩ := (hnext h₁).1 hx
      exact ⟨e, .both h₁ h₂, rfl⟩
    | some f =>
      cases hx
      exact ⟨_, .fault h₁, rfl⟩

theorem effects_singleton : effects s [p] t = p.effect s t := by
  have hlast (e : Effect) : e.andThen (effects s []) = some e := by
    obtain ⟨f, t, text⟩ := e
    cases f with
    | some f => rfl
    | none => simp [Effect.andThen, effects, Effect.behind]
  rw [effects, funext hlast]
  exact Option.bind_fun_some _

theorem effect_empty : Program.effect s #[] t = some ⟨none, t, ""⟩ := by
  have h : (start t []).run s #[] = some ⟨none, start t []⟩ := run_eq_some_iff.2 ⟨1, rfl⟩
  rw [Program.effect, h]
  rfl

theorem Balanced.append {t u : List Char} (ht : Balanced t) (hu : Balanced u) : Balanced (t ++ u) :=
  ht.nesting_append.trans hu

theorem Balanced.flatten {ts : List (List Char)} (h : ∀ t ∈ ts, Balanced t) : Balanced ts.flatten := by
  induction ts with
  | nil => exact .nil
  | cons t ts ih =>
    obtain ⟨ht, hts⟩ := List.forall_mem_cons.1 h
    exact ht.append (ih hts)

/-- The effect of many texts put together. -/
theorem effect_flatten {ps : List Program} (hs : s.debug = false)
    (h : ∀ p ∈ ps, Balanced p.toList ∧ ',' ∉ p.toList) :
    Program.effect s (ps.map Array.toList).flatten.toArray t = effects s ps t := by
  induction ps generalizing t with
  | nil => exact effect_empty
  | cons p ps ih =>
    obtain ⟨⟨hp, -⟩, hps⟩ := List.forall_mem_cons.1 h
    have hbalanced : Balanced (ps.map Array.toList).flatten :=
      .flatten (List.forall_mem_map.2 fun q hq => (hps q hq).1)
    have hget : ',' ∉ (ps.map Array.toList).flatten := by
      intro hmem
      obtain ⟨u, hu, hmem⟩ := List.mem_flatten.1 hmem
      obtain ⟨q, hq, rfl⟩ := List.mem_map.1 hu
      exact (hps q hq).2 hmem
    have hsplit : ((p :: ps).map Array.toList).flatten.toArray = p ++ (ps.map Array.toList).flatten.toArray := by
      simp
    rw [hsplit, effect_append hs hp hbalanced hget, effects]
    refine congrArg _ (funext fun e => ?_)
    exact congrArg e.andThen (funext fun t => ih hps)

end TapeMachine
