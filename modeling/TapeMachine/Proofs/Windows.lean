/-
Where a debugger's window lies. It is centred on the head as far as the two
ends of the tape let it be (`window_eq`), so it shows the head, it is as large
as was asked for or as the tape is, and it follows the head without ever
going back (`window_follows_head`).
-/
import TapeMachine.Session

namespace TapeMachine

variable {s : Setup} {m : Machine} {t u : Tape} {r : Nat} {requested : Int}

namespace Tape

/-- The second adjustment of a window makes up for the cut at the right end. -/
theorem window_eq :
    t.window r = ⟨min (t.head - r / 2) (t.size - r), min (t.head - r / 2) (t.size - r) + min r t.size⟩ := by
  have hlt : t.head < t.size := t.head_lt
  unfold window
  dsimp only
  split <;> (rw [Window.mk.injEq]; omega)

/-- The head stands inside the window, and the window on the tape. -/
theorem head_mem_window (hr : 0 < r) :
    (t.window r).start ≤ t.head ∧ t.head < (t.window r).stop ∧ (t.window r).stop ≤ t.size := by
  have hlt : t.head < t.size := t.head_lt
  rw [window_eq]
  dsimp only
  omega

/-- One step of the head to the right takes the window along, or leaves it. -/
theorem window_right (h : t.right? = some u) :
    ∃ d ≤ 1, u.window r = ⟨(t.window r).start + d, (t.window r).stop + d⟩ := by
  obtain ⟨hcells, hhead⟩ := right?_eq_some_iff.1 h
  have hsize : u.size = t.size := congrArg Array.size hcells
  refine ⟨(u.window r).start - (t.window r).start, ?_, ?_⟩
  · rw [window_eq, window_eq, hsize, hhead]
    dsimp only
    omega
  · rw [window_eq, window_eq, hsize, hhead, Window.mk.injEq]
    dsimp only
    omega

end Tape

theorem Window.rangeOf_eq : (rangeOf requested : Int) = max 1 requested := by
  unfold rangeOf
  omega

/-- A debugger that was asked for a window of so many cells shows one at least.
Its window begins half its size before the head, moved back onto the tape where it
would hang over an end, and has as many cells as it shows or as the
tape has; the head is one of them. When the head goes one cell to the right,
both ends of the window go with it or both stay. -/
theorem window_follows_head :
    let debugger : Setup := { s with view := some (Window.rangeOf requested) }
    let r : Int := max 1 requested
    ∃ w : Window, m.perform debugger .window = some (.ok (.window w), m) ∧
      (w.start : Int) = max 0 (min (m.tape.head - r / 2) (max 0 (m.tape.size - r))) ∧
      (w.stop : Int) = w.start + min r m.tape.size ∧
      w.start ≤ m.tape.head ∧ m.tape.head < w.stop ∧ w.stop ≤ m.tape.size ∧
      ∀ t, m.tape.right? = some t → ∃ d ≤ 1,
        Machine.perform debugger { m with tape := t } .window =
          some (.ok (.window ⟨w.start + d, w.stop + d⟩), { m with tape := t }) := by
  intro debugger r
  have hr : (Window.rangeOf requested : Int) = r := Window.rangeOf_eq
  have hpos : 0 < Window.rangeOf requested := by omega
  obtain ⟨hstart, hstop, hsize⟩ := m.tape.head_mem_window hpos
  refine ⟨m.tape.window (Window.rangeOf requested), rfl, ?_, ?_, hstart, hstop, hsize, fun t ht => ?_⟩
  · rw [← hr, Tape.window_eq]
    dsimp only
    omega
  · rw [← hr, Tape.window_eq]
    dsimp only
    omega
  · obtain ⟨d, hd, hw⟩ := Tape.window_right (r := Window.rangeOf requested) ht
    exact ⟨d, hd, by rw [← hw]; rfl⟩

/-- Asked for four cells of seven, a debugger whose head is on the sixth shows the last four. -/
example : Tape.window ⟨#[0, 0, 0, 0, 0, 0, 0], 5, by decide⟩ (Window.rangeOf 4) = ⟨3, 7⟩ := rfl

end TapeMachine
