/-
Views in a text. The three lines of a view stand behind a line that names the
head, and nowhere else, so they can be taken out of all that was printed
(`removeViews`). That is meant to be done with the text alone, which may be a
whole run's: prompts do not end their lines, and the characters of a program
that are shown between two steps may be line feeds.
-/
import TapeMachine.Transcript

namespace TapeMachine

variable {a b x line rest rest' : List Char} {lines ls : List (List Char)} {n : Nat} {s : String} {v : View}
  {r : Report}

/-! ## Lines that belong to a view -/

/-- The line names the head. A prompt may stand before that. -/
def TellsHead (line : List Char) : Prop := ['P', 't', 'r', ':', ' '] <:+: line

instance : DecidablePred TellsHead := fun line => inferInstanceAs (Decidable (_ <:+: line))

/-- The three lines of a view. -/
def IsView (memory pointer address : List Char) : Prop :=
  ['M', 'e', 'm', 'o', 'r', 'y', ':'] <+: memory ∧ ['P', 'o', 'i', 'n', 't', 'e', 'r', ':'] <+: pointer ∧
    ['A', 'd', 'd', 'r', 'e', 's', 's', ':'] <+: address

instance {memory pointer address : List Char} : Decidable (IsView memory pointer address) :=
  inferInstanceAs (Decidable (_ ∧ _))

/-- The lines without the views, of which every line that names the head has to
have one: `none` if it is not followed by three such lines. -/
def removeViews : List (List Char) → Option (List (List Char))
  | [] => some []
  | line :: rest =>
    if TellsHead line then
      match rest with
      | memory :: pointer :: address :: rest =>
        if IsView memory pointer address then (removeViews rest).map (line :: ·) else none
      | _ => none
    else (removeViews rest).map (line :: ·)

/-- A text with the views taken out of its lines. -/
def withoutViews (text : String) : Option String :=
  (removeViews (text.toList.splitOn '\n')).map fun lines => .ofList (['\n'].intercalate lines)

theorem removeViews_cons_of_not_tellsHead (h : ¬ TellsHead line) :
    removeViews (line :: ls) = (removeViews ls).map (line :: ·) := by
  rw [removeViews.eq_def]
  exact if_neg h

theorem removeViews_cons_of_isView {memory pointer address : List Char} (h : TellsHead line)
    (hv : IsView memory pointer address) :
    removeViews (line :: memory :: pointer :: address :: ls) = (removeViews ls).map (line :: ·) := by
  rw [removeViews, if_pos h, if_pos hv]

theorem removeViews_append (h : ∀ line ∈ lines, ¬ TellsHead line) :
    removeViews (lines ++ ls) = (removeViews ls).map (lines ++ ·) := by
  induction lines with
  | nil => simp
  | cons line lines ih =>
    obtain ⟨hline, hlines⟩ := List.forall_mem_cons.1 h
    rw [List.cons_append, removeViews_cons_of_not_tellsHead hline, ih hlines, Option.map_map]
    rfl

/-! ## Texts and their lines -/

/-- A line feed parts what is before it from what is behind it. -/
theorem splitOn_append : (a ++ '\n' :: b).splitOn '\n' = a.splitOn '\n' ++ b.splitOn '\n' :=
  List.splitOnP_append_cons a b rfl

theorem splitOn_of_not_mem (h : '\n' ∉ a) : a.splitOn '\n' = [a] :=
  List.splitOnP_eq_singleton fun _ hc => beq_false_of_ne fun heq => h (heq ▸ hc)

theorem splitOn_cons_of_not_mem (h : '\n' ∉ a) : (a ++ '\n' :: b).splitOn '\n' = a :: b.splitOn '\n' := by
  rw [splitOn_append, splitOn_of_not_mem h]
  rfl

theorem infix_intercalate {α : Type} {sep l : List α} {ls : List (List α)} (h : l ∈ ls) :
    l <:+: sep.intercalate ls := by
  obtain ⟨i, hi⟩ := List.getElem?_of_mem h
  have hmem : l ∈ ls.intersperse sep := List.mem_of_getElem? (List.getElem?_intersperse_two_mul.trans hi)
  exact List.infix_of_mem_flatten hmem

/-- What no part of a text says, no line of it says. -/
theorem not_tellsHead_of_mem_splitOn (h : ¬ TellsHead x) : ∀ line ∈ x.splitOn '\n', ¬ TellsHead line := by
  intro line hline htells
  have hin : line <:+: ['\n'].intercalate (x.splitOn '\n') := infix_intercalate hline
  rw [List.intercalate_splitOn] at hin
  exact h (htells.trans hin)

/-- The text `b` is the text `a` without its views. -/
def LosesViews (a b : List Char) : Prop := removeViews (a.splitOn '\n') = some (b.splitOn '\n')

theorem withoutViews_eq_some {s' : String} (h : LosesViews s.toList s'.toList) : withoutViews s = some s' := by
  rw [withoutViews, h, Option.map_some, List.intercalate_splitOn, String.ofList_toList]

/-- The line is still to be ended, and what is on it does not name the head. -/
structure Unended (line : List Char) : Prop where
  newline_not_mem : '\n' ∉ line
  tellsHead_append (x : List Char) : TellsHead (line ++ x) ↔ TellsHead x

namespace Unended

theorem nil : Unended [] := ⟨List.not_mem_nil, fun _ => Iff.rfl⟩

theorem append (ha : Unended a) (hb : Unended b) : Unended (a ++ b) where
  newline_not_mem := by
    rw [List.mem_append, not_or]
    exact ⟨ha.newline_not_mem, hb.newline_not_mem⟩
  tellsHead_append x := by rw [List.append_assoc, ha.tellsHead_append, hb.tellsHead_append]

theorem prompt : Unended "Press return to continue.".toList where
  newline_not_mem := by decide
  tellsHead_append x := by simp [TellsHead, List.infix_cons_iff]

theorem losesViews (ha : Unended a) : LosesViews a a := by
  have htells : ¬ TellsHead (a ++ []) := mt (ha.tellsHead_append []).1 (by decide)
  rw [List.append_nil] at htells
  rw [LosesViews, splitOn_of_not_mem ha.newline_not_mem, removeViews_cons_of_not_tellsHead htells]
  rfl

/-- Lines stay that do not name the head. -/
theorem losesViews_append (ha : Unended a) (hx : ¬ TellsHead x) (h : LosesViews rest rest') :
    LosesViews (a ++ (x ++ '\n' :: rest)) (a ++ (x ++ '\n' :: rest')) := by
  have htells : ¬ TellsHead (a ++ x) := mt (ha.tellsHead_append x).1 hx
  rw [← List.append_assoc, ← List.append_assoc, LosesViews, splitOn_append,
    removeViews_append (not_tellsHead_of_mem_splitOn htells), h, splitOn_append]
  rfl

end Unended

/-! ## Reports -/

theorem not_mem_intercalate {α : Type} {c : α} {sep : List α} {ls : List (List α)} (hsep : c ∉ sep)
    (h : ∀ l ∈ ls, c ∉ l) : c ∉ sep.intercalate ls := by
  induction ls with
  | nil => exact List.not_mem_nil
  | cons l ls ih =>
    obtain ⟨hfirst, hrest⟩ := List.forall_mem_cons.1 h
    cases ls with
    | nil => rwa [List.intercalate_singleton]
    | cons l' ls =>
      rw [List.intercalate_cons_cons]
      simp only [List.mem_append, not_or]
      exact ⟨⟨hfirst, hsep⟩, ih hrest⟩

theorem not_mem_repr {c : Char} (hc : c.isDigit = false) : c ∉ (Nat.repr n).toList := by
  rw [Nat.toList_repr]
  intro h
  rw [Nat.isDigit_of_mem_toDigits (by decide) (by decide) h] at hc
  exact absurd hc (by decide)

theorem not_mem_intercalate_toList {c : Char} {sep : String} {l : List String} (hsep : c ∉ sep.toList)
    (h : ∀ s ∈ l, c ∉ s.toList) : c ∉ (sep.intercalate l).toList := by
  rw [String.toList_intercalate]
  exact not_mem_intercalate hsep (List.forall_mem_map.2 h)

namespace Report

section

variable {c : Char}

theorem not_mem_flushRight (hc : c ≠ ' ') (h : c ∉ s.toList) : c ∉ (flushRight n s).toList := by
  simp [flushRight, h, hc]

theorem not_mem_mark {i : Nat} (hc : c ∉ " ^ ".toList) : c ∉ (mark n i).toList := by
  have hblank : "   ".toList ⊆ " ^ ".toList := by decide
  unfold mark
  split
  · exact hc
  · exact fun h => hc (hblank h)

theorem not_mem_headLine (hc : c.isDigit = false) (htext : c ∉ "Ptr: , value: ".toList) :
    c ∉ r.headLine.toList := by
  have hpart {t : String} (ht : t.toList ⊆ "Ptr: , value: ".toList) : c ∉ t.toList := fun h => htext (ht h)
  simp only [headLine, String.toList_append, List.mem_append, not_or]
  exact ⟨⟨⟨hpart (by decide), not_mem_repr hc⟩, hpart (by decide)⟩, not_mem_repr hc⟩

theorem not_mem_memoryLine (hc : c.isDigit = false) (htext : c ∉ "Memory:   [|]".toList) :
    c ∉ (memoryLine v).toList := by
  have hpart {t : String} (ht : t.toList ⊆ "Memory:   [|]".toList) : c ∉ t.toList := fun h => htext (ht h)
  have hspace : c ≠ ' ' := fun h => htext (h ▸ by decide)
  have hcells : c ∉ ("|".intercalate (v.cells.map fun c => flushRight 3 (Nat.repr c.toNat))).toList :=
    not_mem_intercalate_toList (hpart (by decide))
      (List.forall_mem_map.2 fun _ _ => not_mem_flushRight hspace (not_mem_repr hc))
  simp only [memoryLine, String.toList_append, List.mem_append, not_or]
  exact ⟨⟨hpart (by decide), hcells⟩, hpart (by decide)⟩

theorem not_mem_addressLine (hc : c.isDigit = false) (htext : c ∉ "Address:   ".toList) :
    c ∉ (addressLine v).toList := by
  have hpart {t : String} (ht : t.toList ⊆ "Address:   ".toList) : c ∉ t.toList := fun h => htext (ht h)
  have hspace : c ≠ ' ' := fun h => htext (h ▸ by decide)
  have haddresses :
      c ∉ (" ".intercalate ((List.range' v.start v.cells.length).map fun i => flushRight 3 (Nat.repr i))).toList :=
    not_mem_intercalate_toList (hpart (by decide))
      (List.forall_mem_map.2 fun _ _ => not_mem_flushRight hspace (not_mem_repr hc))
  simp only [addressLine, String.toList_append, List.mem_append, not_or]
  exact ⟨htext, haddresses⟩

theorem newline_not_mem_headLine : '\n' ∉ r.headLine.toList := not_mem_headLine (by decide) (by decide)

theorem newline_not_mem_memoryLine : '\n' ∉ (memoryLine v).toList := not_mem_memoryLine (by decide) (by decide)

theorem newline_not_mem_pointerLine : '\n' ∉ (pointerLine n v).toList := by
  have hmarks : '\n' ∉ (" ".intercalate ((List.range' v.start v.cells.length).map (mark n))).toList :=
    not_mem_intercalate_toList (by decide) (List.forall_mem_map.2 fun _ _ => not_mem_mark (by decide))
  simp only [pointerLine, String.toList_append, List.mem_append, not_or]
  exact ⟨by decide, hmarks⟩

theorem newline_not_mem_addressLine : '\n' ∉ (addressLine v).toList := not_mem_addressLine (by decide) (by decide)

end

theorem isView : IsView (memoryLine v).toList (pointerLine n v).toList (addressLine v).toList := by
  simp [IsView, memoryLine, pointerLine, addressLine]

theorem tellsHead : TellsHead (a ++ r.headLine.toList) := by
  refine List.IsInfix.trans ?_ (List.suffix_append a _).isInfix
  simp [headLine, List.infix_cons_iff]

/-- The report as a machine without a window gives it. -/
def unwindowed (r : Report) : Report := { r with view := none }

/-- A report loses its view, whatever has been printed on its first line. -/
theorem losesViews (ha : Unended a) (hr : r.view.isSome) (h : LosesViews rest rest') :
    LosesViews (a ++ (r.text.toList ++ rest)) (a ++ (r.unwindowed.text.toList ++ rest')) := by
  obtain ⟨v, hv⟩ := Option.isSome_iff_exists.1 hr
  have hline : '\n' ∉ a ++ r.headLine.toList := by
    simp [ha.newline_not_mem, newline_not_mem_headLine]
  have htext : a ++ (r.text.toList ++ rest) = a ++ r.headLine.toList ++ '\n' :: ((memoryLine v).toList ++
      '\n' :: ((pointerLine r.head v).toList ++ '\n' :: ((addressLine v).toList ++ '\n' :: rest))) := by
    rw [text_eq, hv]
    simp
  have htext' : a ++ (r.unwindowed.text.toList ++ rest') = a ++ r.headLine.toList ++ '\n' :: rest' := by
    rw [text_eq]
    simp [unwindowed, headLine]
  rw [LosesViews, htext, htext', splitOn_cons_of_not_mem hline, splitOn_cons_of_not_mem newline_not_mem_memoryLine,
    splitOn_cons_of_not_mem newline_not_mem_pointerLine, splitOn_cons_of_not_mem newline_not_mem_addressLine,
    splitOn_cons_of_not_mem hline, removeViews_cons_of_isView tellsHead isView, h]
  rfl

end Report

/-! ## Transcripts -/

/-- The event with another report, if it prints one. -/
def Event.redrawn (f : Report → Report) : Event → Event
  | .state r => .state (f r)
  | .step current next r => .step current next (f r)
  | e => e

/-- The report has a view, if the event prints one. -/
def Event.Drawn : Event → Prop
  | .state r => r.view.isSome
  | .step _ _ r => r.view.isSome
  | _ => True

/-- The report without a window: where a window ends depends on the tape. -/
def Event.unwindowed : Event → Event
  | .state r => .state { r with view := none }
  | .step c d r => .step c d { r with view := none }
  | e => e

theorem Event.redrawn_unwindowed : redrawn Report.unwindowed = unwindowed := by
  funext e
  cases e <;> rfl

/-- What the event prints on the diagnostics. -/
def Event.message (e : Event) : List Char :=
  match e.printed with
  | some (.diagnostics, s) => s.toList
  | _ => []

theorem Event.message_noInput : message .noInput = "Error reading character".toList ++ ['\n'] := by
  simp [message]

theorem Event.message_step {c d : Char} : message (.step c d r) =
    '\n' :: (("Current: " ++ c.toString ++ ", next: " ++ d.toString).toList ++ '\n' :: r.text.toList) := by
  simp [message]

theorem losesViews_messages {es : List Event} (ha : Unended a) (h : ∀ e ∈ es, e.Drawn) :
    LosesViews (a ++ es.flatMap Event.message) (a ++ es.flatMap fun e => e.unwindowed.message) := by
  -- a prompt leaves its line unended, so a line may begin with those of earlier events
  induction es generalizing a with
  | nil => simpa using ha.losesViews
  | cons e es ih =>
    obtain ⟨he, hes⟩ := List.forall_mem_cons.1 h
    rw [List.flatMap_cons, List.flatMap_cons]
    cases e with
    | put | read | flush | acknowledge | observed => exact ih ha hes
    | noInput =>
      have htells : ¬ TellsHead "Error reading character".toList := by simp [TellsHead, List.infix_cons_iff]
      have hline := ha.losesViews_append htells (ih .nil hes)
      simp only [Event.unwindowed, Event.message_noInput, List.append_assoc]
      exact hline
    | state r => exact r.losesViews ha he (ih .nil hes)
    | step c d r =>
      have htells : ¬ TellsHead ("Current: " ++ c.toString ++ ", next: " ++ d.toString).toList := by
        simp [TellsHead, List.infix_cons_iff]
      have hreport := Unended.nil.losesViews_append htells (r.losesViews .nil he (ih .nil hes))
      have hstep := ha.losesViews_append (x := []) (by decide) hreport
      simp only [Event.unwindowed, Event.message_step, List.cons_append, List.append_assoc]
      exact hstep
    | prompt =>
      have hprompt := ih (ha.append .prompt) hes
      rw [List.append_assoc, List.append_assoc] at hprompt
      exact hprompt

namespace Transcript

variable {t u : Transcript}

theorem textOn_output_eq_of_unwindowed_eq (h : t.map Event.unwindowed = u.map Event.unwindowed) :
    t.textOn .output = u.textOn .output := by
  have hkeep (e : Event) :
      e.unwindowed.printed.filter (·.1 = Channel.output) = e.printed.filter (·.1 = Channel.output) := by
    cases e <;> rfl
  have hmap (v : Transcript) : v.reverse.filterMap (fun e => e.unwindowed.printed) =
      ((v.map Event.unwindowed).reverse).filterMap Event.printed := by
    rw [← List.map_reverse, List.filterMap_map]
    rfl
  exact textOn_eq_of_reading_eq hkeep (by rw [hmap, hmap, h])

theorem textOn_output_unwindowed : textOn (t.map Event.unwindowed) .output = t.textOn .output := by
  refine textOn_output_eq_of_unwindowed_eq ?_
  rw [List.map_map]
  exact List.map_congr_left fun e _ => by cases e <;> rfl

theorem toList_textOn_diagnostics : (t.textOn .diagnostics).toList = t.reverse.flatMap Event.message := by
  induction t with
  | nil => rfl
  | cons e t ih =>
    have ht : textOn (e :: t) .diagnostics = _ := textOn_append (t := [e])
    rw [ht, String.toList_append, ih, List.reverse_cons, List.flatMap_append]
    cases e <;> simp [textOn, printed, Event.message]

/-- The messages of a transcript, without the views of its reports, are those of the
transcript without views. -/
theorem withoutViews_messages (h : ∀ e ∈ t, e.Drawn) :
    withoutViews (t.textOn .diagnostics) = some (textOn (t.map Event.unwindowed) .diagnostics) := by
  refine withoutViews_eq_some ?_
  rw [toList_textOn_diagnostics, toList_textOn_diagnostics, ← List.map_reverse, List.flatMap_map]
  exact losesViews_messages .nil fun e he => h e (List.mem_reverse.1 he)

end Transcript
end TapeMachine
