/-
Lines and reads take from one input. Whatever is asked for, the next line or
so many items past it, it takes a chunk from the front of what is left and
nothing behind that (`Takes`). So the chunks that requests have taken, put
together in the order of the requests, are the part of the input that is
gone (`consumers_share_input`), however lines and reads alternate and
wherever in a line or in a character a read stops.
-/
import TapeMachine.Machine
import TapeMachine.Supply

namespace TapeMachine
namespace Supply

variable {fs : Files} {l line rest chunk : List UInt8} {sh : Shared} {r : Request}
  {said : List Announcement} {response : Response}

/-! ## Lines -/

/-- A line, with what comes after it: it ends with its first line feed, or with
the input if it has none. -/
structure IsLine (line rest : List UInt8) : Prop where
  ne_nil : line ≠ []
  inner : 0x0a ∉ line.dropLast
  ended : line.getLast? = some 0x0a ∨ rest = []

theorem takeLine_append : (takeLine l).1 ++ (takeLine l).2 = l := by
  induction l with
  | nil => rfl
  | cons b rest ih =>
    unfold takeLine
    split
    · rfl
    · exact congrArg (b :: ·) ih

theorem isLine_takeLine (h : l ≠ []) : IsLine (takeLine l).1 (takeLine l).2 := by
  induction l with
  | nil => exact absurd rfl h
  | cons b l ih =>
    unfold takeLine
    split
    · next hb => exact ⟨List.cons_ne_nil _ _, List.not_mem_nil, .inl (congrArg some hb)⟩
    · next hb =>
      by_cases hl : l = []
      · subst hl
        exact ⟨List.cons_ne_nil _ _, List.not_mem_nil, .inr rfl⟩
      · obtain ⟨hne, hinner, hended⟩ := ih hl
        refine ⟨List.cons_ne_nil _ _, ?_, ?_⟩
        · rw [List.dropLast_cons_of_ne_nil hne, List.mem_cons, not_or]
          exact ⟨Ne.symm hb, hinner⟩
        · rwa [List.getLast?_cons_of_ne_nil hne]

theorem length_takeLine_cons {b : UInt8} : (takeLine (b :: l)).2.length ≤ l.length := by
  have h := congrArg List.length (takeLine_append (l := b :: l))
  have hpos := List.length_pos_iff.2 (isLine_takeLine (List.cons_ne_nil b l)).ne_nil
  rw [List.length_append, List.length_cons] at h
  omega

/-- Lines up to the end of the input. -/
inductive AreLines : List (List UInt8) → Prop
  | nil : AreLines []
  | cons {line : List UInt8} {lines : List (List UInt8)} :
    IsLine line lines.flatten → AreLines lines → AreLines (line :: lines)

theorem next_lines_cons {b : UInt8} :
    lines.next fs (b :: l) =
      ⟨some (.line (lineText (takeLine (b :: l)).1)), .program (lineText (takeLine (b :: l)).1), .lines,
        (takeLine (b :: l)).2⟩ := by
  generalize h : takeLine (b :: l) = x
  unfold next
  dsimp only
  rw [h]

/-- A supply of lines that is drawn to its end yields all the lines there are. -/
theorem drain_lines (fs : Files) {n : Nat} (h : l.length < n) :
    ∃ lines, AreLines lines ∧ lines.flatten = l ∧
      (Shared.mk .lines l).drain fs n =
        ⟨lines.map fun line => .line (lineText line), .programs (lines.map lineText), ⟨.spent, []⟩⟩ := by
  induction n generalizing l with
  | zero => exact absurd h (Nat.not_lt_zero _)
  | succ n ih =>
    cases l with
    | nil => exact ⟨[], .nil, rfl, rfl⟩
    | cons b l =>
      have hlt : (takeLine (b :: l)).2.length < n :=
        Nat.lt_of_le_of_lt length_takeLine_cons (Nat.lt_of_succ_lt_succ h)
      obtain ⟨lines, hlines, hflat, hdrain⟩ := ih hlt
      have hline := isLine_takeLine (List.cons_ne_nil b l)
      refine ⟨(takeLine (b :: l)).1 :: lines, .cons (hflat ▸ hline) hlines, ?_, ?_⟩
      · rw [List.flatten_cons, hflat, takeLine_append]
      · rw [Shared.drain, next_lines_cons]
        dsimp only
        rw [hdrain]
        rfl

/-! ## Requests -/

/-- All that a request can do where lines are read: the chunk that it takes of
the input and the rest that it leaves, what it says and what it answers. -/
inductive Takes : Request → List UInt8 → List UInt8 → List Announcement → Response → Prop
  | line {line rest : List UInt8} : IsLine line rest →
    Takes .next line rest [.line (lineText line)] (.drawn (.program (lineText line)))
  | finished : Takes .next [] [] [] (.drawn .finished)
  | items {n : Nat} {chunk rest : List UInt8} : chunk.length = min n (chunk ++ rest).length →
    Takes (.take n) chunk rest [] (.items chunk)
  | all {lines : List (List UInt8)} : AreLines lines →
    Takes .all lines.flatten [] (lines.map fun line => .line (lineText line)) (.programs (lines.map lineText))

/-- The end is reported where nothing is left. -/
theorem Takes.finished_iff (h : Takes r chunk rest said response) :
    response = .drawn .finished ↔ r = .next ∧ chunk ++ rest = [] := by
  cases h with
  | line h => simp [h.ne_nil]
  | finished => simp
  | items | all => simp

namespace Shared

/-- The supply yields lines, or it has no more to yield. -/
def OnLines (sh : Shared) : Prop := sh.supply = .lines ∨ sh.supply = .spent ∧ sh.unread = []

/-- What a request takes, it takes from the front. -/
theorem serve_takes (fs : Files) (h : sh.OnLines) (r : Request) :
    ∃ chunk, Takes r chunk (sh.serve fs r).after.unread (sh.serve fs r).announced (sh.serve fs r).response ∧
      chunk ++ (sh.serve fs r).after.unread = sh.unread ∧ (sh.serve fs r).after.OnLines := by
  obtain ⟨supply, l⟩ := sh
  cases r with
  | take n =>
    refine ⟨l.take n, .items ?_, List.take_append_drop n l, ?_⟩
    · simp [serve]
    · rcases h with h | ⟨h, hl⟩
      · exact .inl h
      · obtain rfl : l = [] := hl
        exact .inr ⟨h, List.drop_nil⟩
  | next =>
    rcases h with h | ⟨h, hl⟩
    · obtain rfl : supply = .lines := h
      cases l with
      | nil => exact ⟨[], .finished, rfl, .inr ⟨rfl, rfl⟩⟩
      | cons b l =>
        rw [serve, Shared.next, next_lines_cons]
        exact ⟨_, .line (isLine_takeLine (List.cons_ne_nil b l)), takeLine_append, .inl rfl⟩
    · obtain rfl : supply = .spent := h
      obtain rfl : l = [] := hl
      exact ⟨[], .finished, rfl, .inr ⟨rfl, rfl⟩⟩
  | all =>
    rcases h with h | ⟨h, hl⟩
    · obtain rfl : supply = .lines := h
      obtain ⟨lines, hlines, rfl, hdrain⟩ := drain_lines fs (l := l) (n := l.length + 2) (by omega)
      rw [serve, hdrain]
      exact ⟨_, .all hlines, List.append_nil _, .inr ⟨rfl, rfl⟩⟩
    · obtain rfl : supply = .spent := h
      obtain rfl : l = [] := hl
      exact ⟨[], .all .nil, rfl, .inr ⟨rfl, rfl⟩⟩

/-- What requests take one after the other. -/
theorem exists_chunks (fs : Files) (rs : List Request) (h : sh.OnLines) :
    ∃ chunks : List (List UInt8), chunks.length = rs.length ∧
      ∀ k r, rs[k]? = some r → ∃ served chunk, (sh.serveAll fs rs)[k]? = some served ∧ chunks[k]? = some chunk ∧
        (chunks.take k).flatten ++ (chunk ++ served.after.unread) = sh.unread ∧
        Takes r chunk served.after.unread served.announced served.response := by
  induction rs generalizing sh with
  | nil => exact ⟨[], rfl, fun k r hr => by cases hr⟩
  | cons r rs ih =>
    obtain ⟨chunk, htakes, hchunk, hafter⟩ := serve_takes fs h r
    obtain ⟨chunks, hlength, hchunks⟩ := ih hafter
    refine ⟨chunk :: chunks, congrArg Nat.succ hlength, fun k r' hr => ?_⟩
    cases k with
    | zero =>
      cases hr
      exact ⟨_, _, rfl, rfl, hchunk, htakes⟩
    | succ k =>
      obtain ⟨served, chunk', hserved, hget, hflat, htakes'⟩ := hchunks k r' hr
      refine ⟨served, chunk', hserved, hget, ?_, htakes'⟩
      rw [List.take_succ_cons, List.flatten_cons, List.append_assoc, hflat, hchunk]

end Shared

/-- Of an input that is gone after `k` chunks nothing is left after more. -/
theorem eq_nil_of_chunks {chunks : List (List UInt8)} {input x y : List UInt8} {k j : Nat} (hkj : k ≤ j)
    (hk : (chunks.take k).flatten ++ x = input) (hj : (chunks.take j).flatten ++ y = input) (hx : x = []) :
    y = [] := by
  obtain ⟨t, ht⟩ := List.take_prefix_take_left (l := chunks) hkj
  rw [← ht, List.flatten_append, ← hk, hx, List.append_nil, List.append_assoc] at hj
  exact (List.append_eq_nil_iff.1 (List.self_eq_append_right.1 hj.symm)).2

/-! ## All consumers -/

/-- Lines, and reads past them, take from one input without loss and without
taking anything twice. Any requests that follow each other have chunks: what
each of them takes is what comes next in the input after the chunks before
it, and it does with its chunk what `Takes` says. So the first line asked
for is the first that is taken or announced, a line is told by its own
bytes, and the end is reported exactly where nothing is left, and ever
after. A `,` and the prompt of a pause are reads of one item. -/
theorem consumers_share_input (fs : Files) (input : List UInt8) (rs : List Request) :
    (∃ chunks : List (List UInt8), chunks.length = rs.length ∧
      ∀ k r, rs[k]? = some r → ∃ served chunk,
        (Shared.serveAll fs ⟨.ofArgument none, input⟩ rs)[k]? = some served ∧ chunks[k]? = some chunk ∧
        (chunks.take k).flatten ++ (chunk ++ served.after.unread) = input ∧
        Takes r chunk served.after.unread served.announced served.response ∧
        (served.response = .drawn .finished ↔ r = .next ∧ chunk ++ served.after.unread = []) ∧
        (served.response = .drawn .finished → ∀ j, k ≤ j → rs[j]? = some .next →
          ((Shared.serveAll fs ⟨.ofArgument none, input⟩ rs)[j]?).map (·.response) = some (.drawn .finished))) ∧
    ∀ (s : Setup) (m : Machine) (supply : Supply),
      (Shared.mk supply m.unread).serve fs (.take 1) =
        ⟨[], .items m.unread.head?.toList, ⟨supply, m.readItem.2.unread⟩⟩ ∧
      m.readItem.1 = m.unread.head?.getD 0 ∧
      (m.pause { s with pause := .prompt }).2.unread = m.readItem.2.unread := by
  constructor
  · have hstart : Shared.OnLines ⟨.ofArgument none, input⟩ := .inl rfl
    obtain ⟨chunks, hlength, hchunks⟩ := Shared.exists_chunks fs rs hstart
    refine ⟨chunks, hlength, fun k r hr => ?_⟩
    obtain ⟨served, chunk, hserved, hget, hflat, htakes⟩ := hchunks k r hr
    refine ⟨served, chunk, hserved, hget, hflat, htakes, htakes.finished_iff, fun hend j hkj hj => ?_⟩
    obtain ⟨served', chunk', hserved', -, hflat', htakes'⟩ := hchunks j .next hj
    have hnil := eq_nil_of_chunks hkj hflat hflat' (htakes.finished_iff.1 hend).2
    rw [hserved', Option.map_some, htakes'.finished_iff.2 ⟨rfl, hnil⟩]
  · intro s m supply
    obtain ⟨tape, loops, unread, tally, pauses, log⟩ := m
    cases unread <;> exact ⟨rfl, rfl, rfl⟩

/-- A read that stops inside a character leaves the rest of its line, which is a
program all the same: of the `é` a replacement character is left. When the
last line is gone there are no more, and nothing to read either. -/
theorem line_cut_inside_character :
    (Shared.serveAll ⟨[], [], [], false⟩ ⟨.lines, [0xc3, 0xa9, 0x0a, 0x2b]⟩
      [.take 1, .next, .next, .next, .take 5, .next]).map (·.response) =
      [.items [0xc3], .drawn (.program "\ufffd"), .drawn (.program "+"), .drawn .finished, .items [], .drawn .finished] := by
  obtain ⟨⟨chunks, -, h⟩, -⟩ := consumers_share_input ⟨[], [], [], false⟩ [0xc3, 0xa9, 0x0a, 0x2b]
    [.take 1, .next, .next, .next, .take 5, .next]
  obtain ⟨served, chunk, hserved, -, -, -, -, hend⟩ := h 3 .next rfl
  have hresponse : served.response = .drawn .finished := by
    cases hserved
    rfl
  refine List.ext_getElem? fun k => ?_
  rw [List.getElem?_map]
  -- the last of the responses is the end that was reported before
  match k with
  | 5 => exact hend hresponse 5 (by decide) rfl
  | 0 | 1 | 2 | 3 | 4 => decide +kernel
  | k + 6 => rfl

end Supply
end TapeMachine
