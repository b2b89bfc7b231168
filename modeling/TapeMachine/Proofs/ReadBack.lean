/-
State reports read back. A report with a view is four lines of numbers, flush
right in their fields, and the numbers say all that it tells: `read?` finds
the head and its value in the first line, the cells in the second, and in the
last where they begin. A field is found by its column (`Occupies`). Cells and
marks take three columns each whatever is in them, so they stand below each
other; addresses do as long as they have three digits (`report_reads_back`).
-/
import TapeMachine.Proofs.ReportText
import TapeMachine.Proofs.Windows

namespace TapeMachine

variable {k n first last w : Nat} {f heading sep ending : String} {fields : List String} {a b t : List Char}
  {r r' : Report} {v : View}

namespace Report

/-! ## Fields in a line -/

/-- Fields stand behind a heading of eleven columns, one column between two: where
field `k` begins. -/
def column : List String → Nat → Nat
  | f :: fields, k + 1 => f.length + 1 + column fields k
  | _, _ => 11

/-- Field `k` stands in the columns of the line from `first` to `last`. -/
def Occupies (line : List Char) (fields : List String) (k first last : Nat) : Prop :=
  ∃ f before behind, fields[k]? = some f ∧ line = before ++ f.toList ++ behind ∧ before.length = first ∧
    first = column fields k ∧ first + f.length = last + 1

theorem exists_intercalate_cons {s : List Char} {l : List (List Char)} :
    ∃ b, s.intercalate (a :: l) = a ++ b ∧ (b = [] ∨ s <+: b) := by
  cases l with
  | nil => exact ⟨[], by simp, .inl rfl⟩
  | cons c l =>
    refine ⟨s ++ s.intercalate (c :: l), ?_, .inr (List.prefix_append _ _)⟩
    rw [List.intercalate_cons_cons, List.append_assoc]

theorem exists_intercalate_eq (hsep : sep.length = 1) (hk : fields[k]? = some f) :
    ∃ a b, (sep.intercalate fields).toList = a ++ f.toList ++ b ∧ 11 + a.length = column fields k := by
  rw [String.toList_intercalate]
  induction fields generalizing k with
  | nil => cases hk
  | cons g fields ih =>
    cases k with
    | zero =>
      cases hk
      obtain ⟨b, hb, -⟩ := exists_intercalate_cons (a := f.toList)
      exact ⟨[], b, hb, rfl⟩
    | succ k =>
      have hne : fields.map String.toList ≠ [] := by
        intro h
        rw [List.map_eq_nil_iff.1 h] at hk
        cases hk
      obtain ⟨a, b, hab, ha⟩ := ih hk
      refine ⟨g.toList ++ sep.toList ++ a, b, ?_, ?_⟩
      · rw [List.map_cons, List.intercalate_cons_of_ne_nil hne, hab]
        simp only [List.append_assoc]
      · simp only [column, List.length_append, String.length_toList, hsep]
        omega

/-- In a line of fields, a field stands where those before it have ended. -/
theorem occupies (hheading : heading.length = 11) (hsep : sep.length = 1) (hk : fields[k]? = some f)
    (hlast : column fields k + f.length = last + 1) :
    Occupies (heading ++ sep.intercalate fields ++ ending).toList fields k (column fields k) last := by
  obtain ⟨a, b, hab, ha⟩ := exists_intercalate_eq hsep hk
  refine ⟨f, heading.toList ++ a, b ++ ending.toList, hk, ?_, ?_, rfl, hlast⟩
  · simp only [String.toList_append, hab, List.append_assoc]
  · rw [List.length_append, String.length_toList, hheading, ha]

theorem column_of_three (h : ∀ f ∈ fields, f.length = 3) (hk : k ≤ fields.length) : column fields k = 11 + 4 * k := by
  induction fields generalizing k with
  | nil =>
    obtain rfl := Nat.le_zero.1 hk
    rfl
  | cons f fields ih =>
    obtain ⟨hf, hfields⟩ := List.forall_mem_cons.1 h
    cases k with
    | zero => rfl
    | succ k =>
      rw [column, ih hfields (Nat.le_of_succ_le_succ hk), hf]
      omega

/-- Fields of three columns stand at every fourth. -/
theorem occupies_of_three (hheading : heading.length = 11) (hsep : sep.length = 1) (h : ∀ f ∈ fields, f.length = 3)
    (hk : k < fields.length) :
    Occupies (heading ++ sep.intercalate fields ++ ending).toList fields k (11 + 4 * k) (13 + 4 * k) := by
  rw [← column_of_three h (Nat.le_of_lt hk)]
  refine occupies hheading hsep (List.getElem?_eq_getElem hk) ?_
  rw [h _ (List.getElem_mem hk), column_of_three h (Nat.le_of_lt hk)]
  omega

/-! ## Numbers in fields -/

theorem length_flushRight : (flushRight w f).length = max w f.length := by
  simp [flushRight]
  omega

/-- A number takes three columns if it has three digits at most. -/
theorem length_number : (flushRight 3 (Nat.repr n)).length = 3 ↔ n < 1000 := by
  have hdigits : (Nat.repr n).length ≤ 3 ↔ n < 1000 := by
    rw [← String.length_toList, Nat.toList_repr]
    exact Nat.length_toDigits_le_iff (by decide) (by decide)
  rw [length_flushRight, ← hdigits]
  omega

theorem length_cell {c : UInt8} : (flushRight 3 (Nat.repr c.toNat)).length = 3 :=
  length_number.2 (Nat.lt_trans c.toNat_lt (by decide))

theorem length_mark {head i : Nat} : (mark head i).length = 3 := by
  unfold mark
  split <;> rfl

/-- The number at the beginning of a text, behind its blanks. -/
def numberIn (t : List Char) : Nat := Nat.ofDigitChars 10 ((t.dropWhile (· = ' ')).takeWhile Char.isDigit) 0

theorem isDigit_of_mem_repr : ∀ c ∈ (Nat.repr n).toList, c.isDigit = true := by
  rw [Nat.toList_repr]
  exact fun _ h => Nat.isDigit_of_mem_toDigits (by decide) (by decide) h

theorem takeWhile_repr (h : ∀ c ∈ t.head?, c.isDigit = false) :
    ((Nat.repr n).toList ++ t).takeWhile Char.isDigit = (Nat.repr n).toList := by
  have hstop : t.takeWhile Char.isDigit = [] := by
    cases t with
    | nil => rfl
    | cons c t => exact List.takeWhile_cons_of_neg (by simp [h c rfl])
  rw [List.takeWhile_append_of_pos isDigit_of_mem_repr, hstop, List.append_nil]

theorem dropWhile_repr (h : ∀ c ∈ t.head?, c.isDigit = false) :
    ((Nat.repr n).toList ++ t).dropWhile Char.isDigit = t := by
  rw [List.dropWhile_append_of_pos isDigit_of_mem_repr]
  cases t with
  | nil => rfl
  | cons c t => exact List.dropWhile_cons_of_neg (by simp [h c rfl])

/-- A number is found in its field, whatever follows that. -/
theorem numberIn_flushRight (h : ∀ c ∈ t.head?, c.isDigit = false) :
    numberIn ((flushRight w (Nat.repr n)).toList ++ t) = n := by
  have hblanks : ∀ c ∈ List.replicate (w - (Nat.repr n).length) ' ', decide (c = ' ') = true := by
    intro c hc
    exact decide_eq_true (List.eq_of_mem_replicate hc)
  have hdigits : ((Nat.repr n).toList ++ t).dropWhile (· = ' ') = (Nat.repr n).toList ++ t := by
    cases hl : (Nat.repr n).toList with
    | nil =>
      rw [Nat.toList_repr] at hl
      exact absurd (hl ▸ Nat.length_toDigits_pos : 0 < ([] : List Char).length) (by decide)
    | cons c cs =>
      have hc : c.isDigit = true := isDigit_of_mem_repr c (hl ▸ List.mem_cons_self)
      refine List.dropWhile_cons_of_neg fun hblank => ?_
      rw [of_decide_eq_true hblank] at hc
      exact absurd hc (by decide)
  rw [numberIn, flushRight, String.toList_append, String.toList_ofList, List.append_assoc,
    List.dropWhile_append_of_pos hblanks, hdigits, takeWhile_repr h, Nat.toList_repr]
  exact Nat.ofDigitChars_toDigits (by decide) (by decide)

theorem numberIn_repr (h : ∀ c ∈ t.head?, c.isDigit = false) : numberIn ((Nat.repr n).toList ++ t) = n := by
  have hfield := numberIn_flushRight (w := 0) (n := n) h
  rwa [flushRight, Nat.zero_sub, List.replicate_zero, String.ofList_nil, String.empty_append] at hfield

/-! ## Reports read back -/

/-- The report that a text is, if it is one with a view. -/
def read? (text : String) : Option Report :=
  match text.toList.splitOn '\n' with
  | [line, memory, _, address, []] =>
    let line := line.drop "Ptr: ".length
    let value := (line.dropWhile Char.isDigit).drop ", value: ".length
    let cells := (memory.drop "Memory:   [".length).dropLast.splitOn '|'
    some {
      head := numberIn line
      value := .ofNat (numberIn value)
      view := some {
        start := numberIn (address.drop "Address:   ".length)
        cells := cells.map fun c => .ofNat (numberIn c) } }
  | _ => none

theorem splitOn_text (h : r.view = some v) : r.text.toList.splitOn '\n' =
    [r.headLine.toList, (memoryLine v).toList, (pointerLine r.head v).toList, (addressLine v).toList, []] := by
  have htext : r.text.toList = r.headLine.toList ++ '\n' :: ((memoryLine v).toList ++
      '\n' :: ((pointerLine r.head v).toList ++ '\n' :: ((addressLine v).toList ++ '\n' :: []))) := by
    rw [text_eq, h]
    simp
  rw [htext, splitOn_cons_of_not_mem newline_not_mem_headLine, splitOn_cons_of_not_mem newline_not_mem_memoryLine,
    splitOn_cons_of_not_mem newline_not_mem_pointerLine, splitOn_cons_of_not_mem newline_not_mem_addressLine]
  rfl

theorem drop_heading : (heading ++ f).toList.drop heading.length = f.toList := by
  rw [String.toList_append, ← String.length_toList, List.drop_left]

/-- The first line holds two numbers. -/
theorem drop_headLine : r.headLine.toList.drop "Ptr: ".length =
    (Nat.repr r.head).toList ++ (", value: " ++ Nat.repr r.value.toNat).toList := by
  rw [headLine, String.append_assoc, String.append_assoc, drop_heading, String.toList_append]

/-- The cells are what stands between bars. -/
theorem splitOn_memoryLine (hne : v.cells ≠ []) :
    ((memoryLine v).toList.drop "Memory:   [".length).dropLast.splitOn '|' =
      v.cells.map fun c => (flushRight 3 (Nat.repr c.toNat)).toList := by
  have hbar : ∀ l ∈ v.cells.map fun c => (flushRight 3 (Nat.repr c.toNat)).toList, '|' ∉ l :=
    List.forall_mem_map.2 fun _ _ => not_mem_flushRight (by decide) (not_mem_repr (by decide))
  have hcells : ((memoryLine v).toList.drop "Memory:   [".length).dropLast =
      ['|'].intercalate (v.cells.map fun c => (flushRight 3 (Nat.repr c.toNat)).toList) := by
    rw [memoryLine, String.append_assoc, drop_heading, String.toList_append, String.toList_intercalate, List.map_map]
    exact List.dropLast_concat
  rw [hcells, List.splitOn_intercalate '|' hbar (by simpa using hne)]

/-- The first address is where the cells begin. -/
theorem numberIn_addressLine (hne : v.cells ≠ []) :
    numberIn ((addressLine v).toList.drop "Address:   ".length) = v.start := by
  obtain ⟨k, hk⟩ : ∃ k, v.cells.length = k + 1 := ⟨v.cells.length - 1, by
    have := List.length_pos_iff.2 hne
    omega⟩
  obtain ⟨b, hb, hspace⟩ := exists_intercalate_cons (a := (flushRight 3 (Nat.repr v.start)).toList) (s := [' '])
    (l := (List.range' (v.start + 1) k).map fun i => (flushRight 3 (Nat.repr i)).toList)
  have hline : (addressLine v).toList.drop "Address:   ".length = (flushRight 3 (Nat.repr v.start)).toList ++ b := by
    rw [← hb, addressLine, hk, List.range'_succ, drop_heading, String.toList_intercalate, List.map_cons, List.map_cons,
      List.map_map]
    rfl
  rw [hline]
  refine numberIn_flushRight fun c hc => ?_
  rcases hspace with rfl | ⟨b, rfl⟩
  · cases hc
  · cases hc
    rfl

/-- The text of a report with a view says all that the report tells. -/
theorem read?_text (h : r.view = some v) (hne : v.cells ≠ []) : read? r.text = some r := by
  have hcells : (v.cells.map fun c => (flushRight 3 (Nat.repr c.toNat)).toList).map
      (fun c => UInt8.ofNat (numberIn c)) = v.cells := by
    have hcell (c : UInt8) : UInt8.ofNat (numberIn (flushRight 3 (Nat.repr c.toNat)).toList) = c := by
      have hnumber := numberIn_flushRight (t := []) (w := 3) (n := c.toNat) nofun
      rw [List.append_nil] at hnumber
      rw [hnumber, UInt8.ofNat_toNat]
    rw [List.map_map, Function.comp_def]
    simp only [hcell, List.map_id']
  have hvalue := numberIn_repr (t := []) (n := r.value.toNat) nofun
  rw [List.append_nil] at hvalue
  have hcolon : ∀ c ∈ (", value: " ++ Nat.repr r.value.toNat).toList.head?, c.isDigit = false := by
    rw [String.toList_append]
    intro c hc
    cases hc
    rfl
  rw [read?, splitOn_text h]
  dsimp only
  rw [drop_headLine, splitOn_memoryLine hne, numberIn_addressLine hne, hcells, numberIn_repr hcolon,
    dropWhile_repr hcolon, drop_heading, hvalue, UInt8.ofNat_toNat, ← h]

theorem count_mark {head i : Nat} : (mark head i).toList.count '^' = if i = head then 1 else 0 := by
  unfold mark
  split <;> rfl

theorem count_marks {head : Nat} {l : List Nat} :
    ([' '].intercalate (l.map fun i => (mark head i).toList)).count '^' = l.count head := by
  induction l with
  | nil => rfl
  | cons i l ih =>
    have hsep : [' '].count '^' = 0 := rfl
    by_cases hl : l = []
    · subst hl
      rw [List.map_cons, List.map_nil, List.intercalate_singleton, count_mark, List.count_singleton]
      simp
    · rw [List.map_cons, List.intercalate_cons_of_ne_nil (by simpa using hl), List.count_append, List.count_append, ih,
        hsep, count_mark, List.count_cons]
      simp
      omega

/-- The head is marked once, and nothing else is. -/
theorem count_text (h : r.view = some v) :
    r.text.toList.count '^' = if r.head ∈ List.range' v.start v.cells.length then 1 else 0 := by
  have hmarks : (pointerLine r.head v).toList.count '^' = (List.range' v.start v.cells.length).count r.head := by
    rw [pointerLine, String.toList_append, String.toList_intercalate, List.map_map, List.count_append]
    exact (Nat.zero_add _).trans count_marks
  have hhead : r.headLine.toList.count '^' = 0 := List.count_eq_zero.2 (not_mem_headLine (by decide) (by decide))
  have hmemory : (memoryLine v).toList.count '^' = 0 :=
    List.count_eq_zero.2 (not_mem_memoryLine (by decide) (by decide))
  have haddress : (addressLine v).toList.count '^' = 0 :=
    List.count_eq_zero.2 (not_mem_addressLine (by decide) (by decide))
  have hnewline : "\n".toList.count '^' = 0 := rfl
  rw [text_eq, h]
  simp only [Option.elim_some, String.toList_append, List.count_append, hhead, hmemory, haddress, hmarks, hnewline,
    Nat.zero_add, Nat.add_zero]
  exact List.Nodup.count (List.nodup_range' 1)

end Report

/-! ## The report of a debugger -/

theorem Window.rangeOf_pos {requested : Int} : 0 < rangeOf requested := Nat.le_max_left 1 _

open Report

namespace Tape

variable {t u : Tape} {i j : Nat}

/-- The cells that a window shows, by their addresses. -/
def shown (t : Tape) (n : Nat) : List Nat :=
  List.range' (t.window n).start ((t.window n).stop - (t.window n).start)

def cellFields (t : Tape) (n : Nat) : List String :=
  (t.shown n).map fun i => flushRight 3 (Nat.repr (t.value i).toNat)

def markFields (t : Tape) (n : Nat) : List String := (t.shown n).map (mark t.head)

def addressFields (t : Tape) (n : Nat) : List String := (t.shown n).map fun i => flushRight 3 (Nat.repr i)

theorem length_shown : (t.shown n).length = (t.window n).stop - (t.window n).start := List.length_range'

theorem mem_shown_iff (hn : 0 < n) : i ∈ t.shown n ↔ (t.window n).start ≤ i ∧ i < (t.window n).stop := by
  have hw := t.head_mem_window hn
  rw [shown, List.mem_range'_1]
  omega

theorem getElem?_shown (hk : k < (t.window n).stop - (t.window n).start) :
    (t.shown n)[k]? = some ((t.window n).start + k) := by
  rw [shown, List.getElem?_range' hk, Nat.one_mul]

/-- The head is shown where it is in the window. -/
theorem getElem?_shown_head (hn : 0 < n) : (t.shown n)[t.head - (t.window n).start]? = some t.head := by
  obtain ⟨hstart, hstop, -⟩ := t.head_mem_window hn
  rw [getElem?_shown (by omega), Nat.add_sub_cancel' hstart]

/-- The view of a window holds the cells from its start to its stop. -/
theorem view_eq (hn : 0 < n) : t.view n = ⟨(t.window n).start, (t.shown n).map t.value⟩ := by
  have hsize : (t.window n).stop ≤ t.cells.size := (head_mem_window hn).2.2
  rw [view, View.mk.injEq]
  refine ⟨rfl, List.ext_getElem? fun k => ?_⟩
  by_cases hk : k < (t.window n).stop - (t.window n).start
  · have hin : (t.window n).start + k < t.cells.size := by omega
    rw [Array.getElem?_toList, Array.getElem?_extract, if_pos (by omega), List.getElem?_map, getElem?_shown hk,
      Option.map_some, value, Array.getD_eq_getD_getElem?, Array.getElem?_eq_getElem hin, Option.getD_some]
  · rw [List.getElem?_eq_none (by simp; omega), List.getElem?_eq_none (by rw [List.length_map, length_shown]; omega)]

theorem cells_view_ne_nil (hn : 0 < n) : (t.view n).cells ≠ [] := by
  obtain ⟨hstart, hstop, -⟩ := t.head_mem_window hn
  have hhead : t.head ∈ t.shown n := (mem_shown_iff hn).2 ⟨hstart, hstop⟩
  rw [view_eq hn]
  exact fun h => List.ne_nil_of_mem hhead (List.map_eq_nil_iff.1 h)

/-- A view says where its window lies and what is in it. -/
theorem eq_of_view_eq (hn : 0 < n) (hj : 0 < j) (h : t.view n = u.view j) :
    t.window n = u.window j ∧ ∀ i, (u.window j).start ≤ i → i < (u.window j).stop → t.value i = u.value i := by
  have ht := t.head_mem_window hn
  have hu := u.head_mem_window hj
  rw [view_eq hn, view_eq hj] at h
  obtain ⟨hstart, hcells⟩ := View.mk.inj h
  have hlength := congrArg List.length hcells
  rw [List.length_map, length_shown, List.length_map, length_shown] at hlength
  have hstop : (t.window n).stop = (u.window j).stop := by omega
  have hwindow : t.window n = u.window j := calc
    t.window n = ⟨(t.window n).start, (t.window n).stop⟩ := rfl
    _ = ⟨(u.window j).start, (u.window j).stop⟩ := by rw [hstart, hstop]
  have hshown : t.shown n = u.shown j := by rw [shown, hwindow, shown]
  rw [hshown] at hcells
  exact ⟨hwindow, fun i hi hi' => List.map_inj_left.1 hcells i ((mem_shown_iff hj).2 ⟨hi, hi'⟩)⟩

/-! The three lines of a view -/

theorem memoryLine_view (hn : 0 < n) :
    memoryLine (t.view n) = "Memory:   [" ++ "|".intercalate (t.cellFields n) ++ "]" := by
  rw [view_eq hn, memoryLine, List.map_map]
  rfl

theorem pointerLine_view (hn : 0 < n) :
    pointerLine t.head (t.view n) = "Pointer:   " ++ " ".intercalate (t.markFields n) ++ "" := by
  rw [view_eq hn, pointerLine, List.length_map, length_shown, String.append_empty]
  rfl

theorem addressLine_view (hn : 0 < n) :
    addressLine (t.view n) = "Address:   " ++ " ".intercalate (t.addressFields n) ++ "" := by
  rw [view_eq hn, addressLine, List.length_map, length_shown, String.append_empty]
  rfl

theorem occupies_memoryLine (hn : 0 < n) (hk : k < (t.window n).stop - (t.window n).start) :
    Occupies (memoryLine (t.view n)).toList (t.cellFields n) k (11 + 4 * k) (13 + 4 * k) := by
  rw [memoryLine_view hn]
  refine occupies_of_three rfl rfl (List.forall_mem_map.2 fun _ _ => length_cell) ?_
  rwa [cellFields, List.length_map, length_shown]

theorem occupies_pointerLine (hn : 0 < n) (hk : k < (t.window n).stop - (t.window n).start) :
    Occupies (pointerLine t.head (t.view n)).toList (t.markFields n) k (11 + 4 * k) (13 + 4 * k) := by
  rw [pointerLine_view hn]
  refine occupies_of_three rfl rfl (List.forall_mem_map.2 fun _ _ => length_mark) ?_
  rwa [markFields, List.length_map, length_shown]

theorem exists_occupies_addressLine (hn : 0 < n) (hk : k < (t.window n).stop - (t.window n).start) :
    ∃ first last, Occupies (addressLine (t.view n)).toList (t.addressFields n) k first last := by
  have hf : (t.addressFields n)[k]? = some (flushRight 3 (Nat.repr ((t.window n).start + k))) := by
    rw [addressFields, List.getElem?_map, getElem?_shown hk, Option.map_some]
  obtain ⟨l, hl⟩ : ∃ l, (flushRight 3 (Nat.repr ((t.window n).start + k))).length = l + 1 :=
    Nat.exists_eq_succ_of_ne_zero (by rw [length_flushRight]; omega)
  rw [addressLine_view hn]
  exact ⟨_, column (t.addressFields n) k + l, occupies rfl rfl hf (by omega)⟩

/-- Addresses stand below the cells as long as none of them has four digits. -/
theorem addresses_aligned_iff (hn : 0 < n) :
    (∀ k < (t.window n).stop - (t.window n).start,
      Occupies (addressLine (t.view n)).toList (t.addressFields n) k (11 + 4 * k) (13 + 4 * k)) ↔
    (t.window n).stop ≤ 1000 := by
  have hw := t.head_mem_window hn
  constructor
  · intro h
    -- the last address is the longest
    have hlast : (t.window n).stop - 1 - (t.window n).start < (t.window n).stop - (t.window n).start := by omega
    obtain ⟨f, _, _, hf, -, -, -, hlength⟩ := h _ hlast
    rw [addressFields, List.getElem?_map, getElem?_shown hlast, Option.map_some, Option.some.injEq] at hf
    have hthree : (flushRight 3 (Nat.repr ((t.window n).start + ((t.window n).stop - 1 - (t.window n).start)))).length =
        3 := by
      rw [hf]
      omega
    have := length_number.1 hthree
    omega
  · intro h k hk
    rw [addressLine_view hn]
    refine occupies_of_three rfl rfl (List.forall_mem_map.2 fun i hi => length_number.2 ?_) ?_
    · have := (mem_shown_iff hn).1 hi
      omega
    · rwa [addressFields, List.length_map, length_shown]

/-- The address behind that of 999 is one column longer. -/
example : addressLine ⟨998, [0, 0, 0, 0]⟩ = "Address:   998 999 1000 1001" := by decide

end Tape

/-- What a machine prints when it is asked for its state. -/
def Machine.reportText (s : Setup) (m : Machine) : String := (m.quiet.report s).log.textOn .diagnostics

theorem Machine.reportText_eq {s : Setup} {m : Machine} : m.reportText s = (m.tape.report s.view).text := by
  simp [reportText, Machine.report, note, quiet, Transcript.textOn, Transcript.printed]

/-- The four lines that a debugger prints can be read back and are aligned. Where two
debuggers print the same, their heads are at the same place, their windows lie at
the same place, and in the windows are the same values. The cells of the second line
and the marks of the third stand below each other, three columns each and one
between two. There is one `^`, and it marks the head: at that place of the three lines
are the value and the address that the first line tells. The addresses of the
fourth line stand below the cells and marks exactly if none is greater than 999. -/
theorem report_reads_back {debug debug' : Bool} {pause pause' : Pause} {requested requested' : Int} {m m' : Machine} :
    let n := Window.rangeOf requested
    let n' := Window.rangeOf requested'
    let w := m.tape.window n
    let text := m.reportText ⟨debug, some n, pause⟩
    (m'.reportText ⟨debug', some n', pause'⟩ = text → m'.tape.head = m.tape.head ∧ m'.tape.window n' = w ∧
      ∀ i, w.start ≤ i → i < w.stop → m'.tape.value i = m.tape.value i) ∧
    ∃ memory pointer address : List Char,
      text.toList.splitOn '\n' = [("Ptr: " ++ Nat.repr m.tape.head ++ ", value: " ++ Nat.repr m.tape.cell.toNat).toList,
        memory, pointer, address, []] ∧
      (∀ k < w.stop - w.start,
        Occupies memory (m.tape.cellFields n) k (11 + 4 * k) (13 + 4 * k) ∧
        Occupies pointer (m.tape.markFields n) k (11 + 4 * k) (13 + 4 * k) ∧
        ∃ first last, Occupies address (m.tape.addressFields n) k first last) ∧
      ((∀ k < w.stop - w.start, Occupies address (m.tape.addressFields n) k (11 + 4 * k) (13 + 4 * k)) ↔
        w.stop ≤ 1000) ∧
      text.toList.count '^' = 1 ∧
      (m.tape.markFields n)[m.tape.head - w.start]? = some " ^ " ∧
      (m.tape.cellFields n)[m.tape.head - w.start]? = some (flushRight 3 (Nat.repr m.tape.cell.toNat)) ∧
      (m.tape.addressFields n)[m.tape.head - w.start]? = some (flushRight 3 (Nat.repr m.tape.head)) := by
  intro n n' w text
  have hn : 0 < n := Window.rangeOf_pos
  have hn' : 0 < n' := Window.rangeOf_pos
  have htext : text = (m.tape.report (some n)).text := Machine.reportText_eq
  have hhead := m.tape.getElem?_shown_head hn
  refine ⟨fun heq => ?_, (memoryLine (m.tape.view n)).toList, (pointerLine m.tape.head (m.tape.view n)).toList,
    (addressLine (m.tape.view n)).toList, ?_, fun k hk => ⟨?_, ?_, ?_⟩, m.tape.addresses_aligned_iff hn, ?_, ?_, ?_, ?_⟩
  · rw [htext, Machine.reportText_eq] at heq
    have hread := congrArg read? heq
    rw [read?_text rfl (Tape.cells_view_ne_nil hn'), read?_text rfl (Tape.cells_view_ne_nil hn), Option.some.injEq,
      Tape.report, Tape.report, Report.mk.injEq] at hread
    obtain ⟨hsame, -, hview⟩ := hread
    exact ⟨hsame, Tape.eq_of_view_eq hn' hn (Option.some.inj hview)⟩
  · rw [htext]
    exact splitOn_text rfl
  · exact Tape.occupies_memoryLine hn hk
  · exact Tape.occupies_pointerLine hn hk
  · exact Tape.exists_occupies_addressLine hn hk
  · obtain ⟨hstart, hstop, -⟩ := m.tape.head_mem_window hn
    have hshown : m.tape.head ∈ m.tape.shown n := (Tape.mem_shown_iff hn).2 ⟨hstart, hstop⟩
    have hview : (m.tape.view n).cells.length = w.stop - w.start := by
      rw [Tape.view_eq hn, List.length_map, Tape.length_shown]
    rw [htext, count_text rfl, hview]
    exact if_pos hshown
  · rw [Tape.markFields, List.getElem?_map, hhead, Option.map_some, mark, if_pos rfl]
  · rw [Tape.cellFields, List.getElem?_map, hhead, Option.map_some, Tape.cell_eq_value]
  · rw [Tape.addressFields, List.getElem?_map, hhead, Option.map_some]

end TapeMachine
