import CMarmotta.Util.Split
import CMarmotta.Lib.Separated

/-!
# `split` cuts at the separators

The loop reads one piece after another, and fails only when nothing is left, so it drops an empty
piece at the end of the string (`split_eq_pieces`).
-/

namespace CMarmotta

open Separated

theorem splitLoop_of_not_good {ss : IStream UInt8} (h : ss.good ≠ true) (item : Bytes)
    (delim : UInt8) (elems : List Bytes) : splitLoop ss item delim elems = elems := by
  have hgetline : ss.getline item delim = ({ ss with failbit := true }, item) := by
    rw [IStream.getline, if_neg h]
  rw [splitLoop, hgetline]
  rfl

/-- The loop appends the pieces of what is left of a good stream. -/
theorem splitLoop_eq_pieces {ss : IStream UInt8} (hgood : ss.good = true) (item : Bytes)
    (delim : UInt8) (elems : List Bytes) :
    splitLoop ss item delim elems = elems ++ pieces delim ss.remaining := by
  fun_induction splitLoop ss item delim elems with
  | case1 ss item elems next hok ih =>
    have hne : ss.remaining ≠ [] := by
      have hlt := IStream.length_remaining_getline_lt hok
      intro hnil
      rw [hnil] at hlt
      exact absurd hlt (Nat.not_lt_zero _)
    rw [pieces_eq_cons hne]
    cases hdrop : ss.remaining.dropWhile (fun c => c ≠ delim) with
    | nil =>
      -- The last piece ends with the stream, which is not good any more.
      have hnext : next = _ := IStream.getline_of_nil hgood hdrop
      have hbad : next.1.good ≠ true := by
        rw [hnext]
        simp [IStream.good]
      have hpiece : next.2 = ss.remaining.takeWhile fun c => c ≠ delim := by
        have happend :=
          List.takeWhile_append_dropWhile (p := fun c => c ≠ delim) (l := ss.remaining)
        rw [hdrop, List.append_nil] at happend
        rw [hnext, happend]
      rw [splitLoop_of_not_good hbad, hpiece]
      rfl
    | cons sep rest =>
      have hnext : next = _ := IStream.getline_of_cons hgood hdrop
      have hgood' : next.1.good = true := by
        rw [hnext]
        exact hgood
      rw [ih hgood', hnext, List.append_assoc]
      rfl
  | case2 ss item elems next hok =>
    have hnil : ss.remaining = [] := by
      by_contra hne
      refine hok ?_
      cases hdrop : ss.remaining.dropWhile (fun c => c ≠ delim) with
      | nil =>
        have hnext : next = _ := IStream.getline_of_nil hgood hdrop
        rw [hnext]
        simp [IStream.ok, hne]
      | cons sep rest =>
        have hnext : next = _ := IStream.getline_of_cons hgood hdrop
        rw [hnext]
        simp only [IStream.good, Bool.and_eq_true] at hgood
        exact hgood.2
    rw [hnil]
    exact (List.append_nil elems).symm

theorem split_eq_pieces (s : Bytes) (delim : UInt8) : split s delim = pieces delim s :=
  splitLoop_eq_pieces rfl [] delim []

end CMarmotta
