/-
The echo: `,[.,]` reads a byte and, as long as it is not 0, writes it and reads
the next. What it is still to write is the same at both brackets of the loop,
the byte under the head and those unread, up to the first 0
(`Machine.pending`), and a round writes the first of these (`exists_echoed`).
Where the input has no 0 its end is read as one, and that is the only
complaint (`echo_exact`).
-/
import TapeMachine.Proofs.Evaluating
import TapeMachine.Proofs.SimpleLoops

namespace TapeMachine

open Machine Run Program Text

variable {s : Setup} {p : Program} {i n : Nat} {m m₁ m' : Machine} {w : List Char} {x d : List UInt8}

/-- The program that writes what it reads. -/
def Program.echo : Program := #[',', '[', '.', ',', ']']

/-- The bytes before the first 0, or all of them if there is none. -/
def beforeZero (d : List UInt8) : List UInt8 := d.takeWhile (· ≠ 0)

/-- What a machine at a bracket of the echo is still to write. -/
def Machine.pending (m : Machine) : List UInt8 := beforeZero (m.tape.cell :: m.unread)

/-- What the echo does when it writes `n` bytes. -/
def echoTrace (n : Nat) : List Char := ',' :: '[' :: rounds ['.', ','] n

/-- The second machine is the first after an echo that wrote the bytes `x`. -/
structure Machine.Echoed (x : List UInt8) (m m' : Machine) : Prop where
  tape : m'.tape = m.tape.write 0
  loops : m'.loops = []
  unread : m'.unread = m.unread.drop (x.length + 1)
  tally : m'.tally = {
    reads := m.tally.reads + min (x.length + 1) m.unread.length
    readErrors := m.tally.readErrors + if 0 ∈ m.unread then 0 else 1
    writes := m.tally.writes + x.length
    steps := m.tally.steps + (2 + 3 * x.length) }
  written : m'.log.written = m.log.written ++ Latin1.decode x

/-! ## Bytes and characters -/

theorem beforeZero_cons_of_ne {b : UInt8} (h : b ≠ 0) : beforeZero (b :: d) = b :: beforeZero d := by
  simp [beforeZero, h]

/-- The end of the input is read as a 0. -/
theorem beforeZero_head_tail : beforeZero (d.headD 0 :: d.tail) = beforeZero d := by
  cases d <;> simp [beforeZero]

/-- An input is read past its end, and then just once, if it has no 0. -/
theorem length_beforeZero (d : List UInt8) : (beforeZero d).length + 1 - d.length = if 0 ∈ d then 0 else 1 := by
  have hpre : beforeZero d <+: d := List.takeWhile_prefix _
  have hle := hpre.length_le
  have hall : beforeZero d = d ↔ 0 ∉ d := by
    rw [beforeZero, List.takeWhile_eq_self_iff]
    simp only [decide_eq_true_eq]
    exact ⟨fun h hd => h 0 hd rfl, fun h b hb hz => h (hz ▸ hb)⟩
  by_cases hd : 0 ∈ d
  · have hne : (beforeZero d).length ≠ d.length := fun heq => hall.1 (hpre.eq_of_length heq) hd
    rw [if_pos hd]
    omega
  · rw [if_neg hd, hall.2 hd]
    omega

theorem length_echoTrace : (echoTrace n).length = 2 + 3 * n := by
  rw [echoTrace, List.length_cons, length_rounds, List.length_cons, List.length_singleton]
  omega

theorem count_echoTrace : (echoTrace n).count ',' = n + 1 := by
  simp [echoTrace, rounds, List.count_flatten]

/-! ## Reads and writes on the way -/

namespace Machine.Arrives

variable (h : m.Arrives s p w i m₁) (hs : s.debug = false)

include h hs

theorem exists_put (hc : p[i]? = some '.') :
    ∃ m₂, m.Arrives s p (w ++ ['.']) (i + 1) m₂ ∧ m₂.tape = m₁.tape ∧ m₂.unread = m₁.unread ∧
      m₂.log.written = m₁.log.written ++ [Char.ofUInt8 m₁.tape.cell] := by
  have ho := (Obeys.put : Obeys s m₁ (some .put) _).obey_eq (c := ⟨'.', by decide⟩)
  have hstep := (Dispatch.plain ho).step_eq_going hs hc
  have hwritten := written_step (p := p) (i := i) (m := m₁) hs
  rw [hstep, hc, if_pos rfl] at hwritten
  exact ⟨_, h.step hc hstep, rfl, rfl, hwritten⟩

theorem exists_get (hc : p[i]? = some ',') :
    ∃ m₂, m.Arrives s p (w ++ [',']) (i + 1) m₂ ∧ m₂.tape = m₁.tape.write (m₁.unread.headD 0) ∧
      m₂.unread = m₁.unread.tail ∧ m₂.log.written = m₁.log.written := by
  have ho := (Obeys.get : Obeys s m₁ (some .get) _).obey_eq (c := ⟨',', by decide⟩)
  have hstep := (Dispatch.plain ho).step_eq_going hs hc
  have hwritten := written_step (p := p) (i := i) (m := m₁) hs
  rw [hstep, hc, if_neg (by decide), List.append_nil] at hwritten
  exact ⟨_, h.step hc hstep, by simp [countStep], by simp [countStep], hwritten⟩

end Machine.Arrives

/-! ## The loop -/

theorem partners_echo : echo.Partners 1 4 := by
  have hat : echo.At 1 ('[' :: (['.', ','] ++ [']'])) := (at_toList (p := echo)).2
  exact ⟨['.', ','], by decide, hat, rfl⟩

/-- At a 0 both brackets lead out of the loop, and otherwise both lead into its body. -/
theorem Machine.Arrives.exists_bracket (h : m.Arrives s echo w i m₁) (hs : s.debug = false) (hi : i = 1 ∨ i = 4) :
    ∃ m₂, m.Arrives s echo (w ++ echo[i]?.toList) (if m₁.tape.cell = 0 then 5 else 2) m₂ ∧
      m₂.tape = m₁.tape ∧ m₂.unread = m₁.unread ∧ m₂.log = m₁.log := by
  have hl := h.loops_eq
  rcases hi with rfl | rfl
  · by_cases hz : m₁.tape.cell = 0
    · rw [if_pos hz]
      exact ⟨_, h.step rfl ((Dispatch.skip hz partners_echo).step_eq_going hs rfl), rfl, rfl, rfl⟩
    · rw [if_neg hz]
      exact ⟨_, h.step rfl ((Dispatch.enter hz).step_eq_going hs rfl), rfl, rfl, rfl⟩
  · by_cases hz : m₁.tape.cell = 0
    · rw [if_pos hz]
      exact ⟨_, h.step rfl ((Dispatch.leave hz).step_eq_going hs rfl), rfl, rfl, rfl⟩
    · rw [if_neg hz]
      exact ⟨_, h.step rfl ((Dispatch.back hz hl).step_eq_going hs rfl), rfl, rfl, rfl⟩

/-- From either bracket a run writes what is pending and leaves the loop. -/
theorem exists_echoed (hs : s.debug = false) (h : m.Arrives s echo w i m₁) (hi : i = 1 ∨ i = 4)
    (hx : m₁.pending = x) :
    ∃ m', m.Arrives s echo (w ++ echo[i]?.toList ++ rounds ['.', ','] x.length) 5 m' ∧
      m'.tape = m₁.tape.write 0 ∧ m'.log.written = m₁.log.written ++ Latin1.decode x := by
  induction x generalizing w i m₁ with
  | nil =>
    have hz : m₁.tape.cell = 0 := by simpa [pending, beforeZero] using hx
    obtain ⟨m₂, harr, htape, -, hlog⟩ := h.exists_bracket hs hi
    rw [if_pos hz] at harr
    refine ⟨m₂, by simpa [rounds] using harr, ?_, ?_⟩
    · rw [htape, ← hz, Tape.write_cell]
    · rw [hlog, Latin1.decode, List.map_nil, List.append_nil]
  | cons b x ih =>
    have hz : m₁.tape.cell ≠ 0 := fun hz => by simp [pending, beforeZero, hz] at hx
    rw [pending, beforeZero_cons_of_ne hz] at hx
    obtain ⟨rfl, hrest⟩ := List.cons.inj hx
    -- once around, from this bracket to the `]`
    obtain ⟨m₂, harr, htape, hunread, hlog⟩ := h.exists_bracket hs hi
    rw [if_neg hz] at harr
    obtain ⟨m₃, harr, htape₃, hunread₃, hlog₃⟩ := harr.exists_put hs rfl
    obtain ⟨m₄, harr, htape₄, hunread₄, hlog₄⟩ := harr.exists_get hs rfl
    have hpending : m₄.pending = x := by
      rw [pending, htape₄, Tape.cell_write, hunread₄, beforeZero_head_tail, hunread₃, hunread, hrest]
    obtain ⟨m', harr', htape', hlog'⟩ := ih harr (.inr rfl) hpending
    have hleave : echo[4]?.toList = [']'] := rfl
    refine ⟨m', ?_, ?_, ?_⟩
    · simpa [hleave, rounds_cons] using harr'
    · rw [htape', htape₄, Tape.write_write, htape₃, htape]
    · rw [hlog', hlog₄, hlog₃, hlog, htape, List.append_assoc]
      rfl

/-- What a run of the echo has counted follows from what it did and what it wrote. -/
theorem Machine.Ends.tally_echoed (h : m.Ends s echo (echoTrace (beforeZero m.unread).length) ⟨none, m'⟩)
    (hs : s.debug = false) (hw : m'.log.written = m.log.written ++ Latin1.decode (beforeZero m.unread)) :
    m'.tally = {
      reads := m.tally.reads + min ((beforeZero m.unread).length + 1) m.unread.length
      readErrors := m.tally.readErrors + if 0 ∈ m.unread then 0 else 1
      writes := m.tally.writes + (beforeZero m.unread).length
      steps := m.tally.steps + (2 + 3 * (beforeZero m.unread).length) } := by
  obtain ⟨hspent, hsteps⟩ := h.accounts hs
  obtain ⟨t, hlog, haccounts⟩ := exists_accounts_of_run h.run
  have hwritten : t.written = Latin1.decode (beforeZero m.unread) := by
    rw [hlog, Transcript.written_append] at hw
    exact List.append_cancel_left hw
  have hwrites := haccounts.writes
  rw [hwritten, Latin1.decode, List.length_map] at hwrites
  have hreads := hspent.reads
  rw [count_echoTrace] at hreads
  have herrors := hspent.readErrors
  rw [count_echoTrace, length_beforeZero] at herrors
  rw [length_echoTrace] at hsteps
  calc m'.tally
    _ = ⟨m'.tally.reads, m'.tally.readErrors, m'.tally.writes, m'.tally.steps⟩ := rfl
    _ = _ := by rw [hreads, herrors, hwrites, ← hsteps]; rfl

/-- A plain run of the echo ends, and has then written its input up to the first 0. -/
theorem Machine.exists_ends_echo (hs : s.debug = false) (m : Machine) :
    ∃ m', m.Ends s echo (echoTrace (beforeZero m.unread).length) ⟨none, m'⟩ ∧ m.Echoed (beforeZero m.unread) m' := by
  have hget : echo[0]? = some ',' := rfl
  have hpast : echo[5]? = none := rfl
  obtain ⟨m₁, harr, htape₁, hunread₁, hlog₁⟩ := (Arrives.start (m := m)).exists_get hs hget
  have hpending : m₁.pending = beforeZero m.unread := by
    rw [pending, htape₁, Tape.cell_write, hunread₁, beforeZero_head_tail]
    rfl
  obtain ⟨m', harr, htape, hwritten⟩ := exists_echoed hs harr (.inl rfl) hpending
  have hends := harr.ends (step_past hpast)
  rw [hpast, Option.toList_none, List.append_nil] at hends
  rw [hlog₁] at hwritten
  refine ⟨m', hends, ?_, harr.loops_eq, ?_, hends.tally_echoed hs hwritten, hwritten⟩
  · rw [htape, htape₁, Tape.write_write]
    rfl
  · rw [← count_echoTrace]
    exact (hends.accounts hs).1.unread

/-- On a tape of any length the echo of any bytes comes to an end and gives back those
before the first 0, or all of them if there is none. So does any machine that is not
debugged, whatever its tape holds: it leaves a 0 under its head and no loop entered,
and has read one byte more than it wrote, or, if there is none, has complained once. -/
theorem echo_exact {length : Int} (hn : 1 ≤ length) (d : List UInt8) :
    echo.evaluate (.bytes d) length = some (.ok (String.ofList (Latin1.decode (beforeZero d)))) ∧
    ∀ (s : Setup) (m : Machine), s.debug = false → m.unread = d →
      ∃ m', m.Ends s echo (echoTrace (beforeZero d).length) ⟨none, m'⟩ ∧ m.Echoed (beforeZero d) m' := by
  constructor
  · obtain ⟨m', hends, hechoed⟩ :=
      exists_ends_echo (s := .silent) rfl (start (.blank length.toNat (Int.lt_toNat.2 hn)) d)
    have hresult : Ending.result ⟨none, m'⟩ = .ok (String.ofList (Latin1.decode (beforeZero d))) := by
      rw [Ending.result, Transcript.textOn_output, hechoed.written]
      rfl
    rw [evaluate_of_encoded rfl hn, hends.run, Option.map_some, hresult]
    rfl
  · rintro s m hs rfl
    exact exists_ends_echo hs m

/-- Of `Hi`, a 0 and `!` the last is not read. -/
theorem hi_is_echoed : (1 : Int) ≤ 1 ∧ echo.evaluate (.bytes [72, 105, 0, 33]) 1 = some (.ok "Hi") ∧
    ∃ m', (start (.blank 1 (by decide)) [72, 105, 0, 33]).Ends {} echo (echoTrace 2) ⟨none, m'⟩ ∧
      m'.unread = [33] ∧ m'.tally = ⟨3, 0, 2, 8⟩ := by
  have hn : (1 : Int) ≤ 1 := by decide
  obtain ⟨hout, hmachine⟩ := echo_exact hn [72, 105, 0, 33]
  obtain ⟨m', hends, hechoed⟩ := hmachine {} (start (.blank 1 (by decide)) [72, 105, 0, 33]) rfl rfl
  exact ⟨hn, hout, m', hends, hechoed.unread, hechoed.tally⟩

end TapeMachine
