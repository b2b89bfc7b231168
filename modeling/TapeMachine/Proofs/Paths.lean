/-
The names of a path, told by its characters: a path is cut at its slashes
(`names_eq`). In this form paths can be evaluated.
-/
import Mathlib.Data.String.Basic
import TapeMachine.Files

namespace TapeMachine.Path

/-- Cutting at slashes, with `l` cut off before, `m` read since then, and `r` to
come. -/
theorem splitOnAux_slash (l m r : List Char) (acc : List String) :
    String.splitOnAux (.ofList (l ++ m ++ r)) "/" ⟨String.utf8Len l⟩ ⟨String.utf8Len l + String.utf8Len m⟩ 0 acc =
      acc.reverse ++ (List.splitOnPPrepend (· == '/') r m.reverse).map String.ofList := by
  induction r generalizing l m acc with
  | nil =>
    have hend : String.Pos.Raw.atEnd (.ofList (l ++ m ++ [])) ⟨String.utf8Len l + String.utf8Len m⟩ = true := by
      rw [← String.utf8Len_append, String.atEnd_of_valid]
    rw [String.splitOnAux, if_pos hend, String.extract_of_valid]
    simp
  | cons c r ih =>
    have hend : ¬ String.Pos.Raw.atEnd (.ofList (l ++ m ++ c :: r)) ⟨String.utf8Len l + String.utf8Len m⟩ = true := by
      rw [← String.utf8Len_append, String.atEnd_of_valid]
      exact List.cons_ne_nil c r
    have hget : String.Pos.Raw.get (.ofList (l ++ m ++ c :: r)) ⟨String.utf8Len l + String.utf8Len m⟩ = c := by
      rw [← String.utf8Len_append, String.get_of_valid]
      rfl
    have hnext : String.Pos.Raw.next (.ofList (l ++ m ++ c :: r)) ⟨String.utf8Len l + String.utf8Len m⟩ =
        ⟨String.utf8Len l + String.utf8Len m + c.utf8Size⟩ := by
      rw [← String.utf8Len_append, String.next_of_valid]
    have hslash : String.Pos.Raw.get "/" 0 = '/' := by decide
    rw [String.splitOnAux, if_neg hend, hget, hslash]
    dsimp only
    by_cases hc : c = '/'
    · subst hc
      have hbeyond : String.Pos.Raw.atEnd "/" (String.Pos.Raw.next "/" 0) = true := by decide
      have hback : String.Pos.Raw.unoffsetBy ⟨String.utf8Len l + String.utf8Len m + '/'.utf8Size⟩
          (String.Pos.Raw.next "/" 0) = ⟨String.utf8Len l + String.utf8Len m⟩ := rfl
      rw [if_pos (by rfl), hnext, if_pos hbeyond, hback, String.extract_of_valid]
      simpa [Nat.add_assoc, List.splitOnPPrepend_cons_eq_if] using ih (l ++ m ++ ['/']) [] (.ofList m :: acc)
    · have hback : String.Pos.Raw.unoffsetBy ⟨String.utf8Len l + String.utf8Len m⟩ 0 =
          ⟨String.utf8Len l + String.utf8Len m⟩ := rfl
      rw [if_neg (by simpa using hc), hback, hnext]
      simpa [Nat.add_assoc, List.splitOnPPrepend_cons_eq_if, hc] using ih l (m ++ [c]) acc

/-- The names of a path are what its slashes divide. -/
theorem names_eq {path : String} : names path = (path.toList.splitOn '/').map String.ofList := by
  rw [names, String.splitOn, if_neg (by decide)]
  simpa [List.splitOn_eq_splitOnP] using splitOnAux_slash [] [] path.toList []

end TapeMachine.Path
