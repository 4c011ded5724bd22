import CMarmotta.Lib.IStream

/-!
# Reading to the end of a stream

A read that succeeds takes something off the stream, so that a loop that reads while it can comes to
an end.
-/

namespace IStream

variable {α : Type} {ins : IStream α}

theorem good_of_ok_read {buffer : List α} {n : Nat} (h : (ins.read buffer n).1.ok = true) :
    ins.good = true := by
  by_contra hgood
  rw [read, if_neg hgood] at h
  cases h

/-- A read fails unless it gets all the characters it asks for. -/
theorem ok_read_iff (hgood : ins.good = true) (buffer : List α) (n : Nat) :
    (ins.read buffer n).1.ok = true ↔ n ≤ ins.remaining.length := by
  rw [read, if_pos hgood]
  simp only [ok, Bool.not_eq_true', decide_eq_false_iff_not, List.length_take]
  omega

/-- The start of the buffer holds what was read. -/
theorem take_read (hgood : ins.good = true) (buffer : List α) (n : Nat) :
    (ins.read buffer n).2.take (ins.read buffer n).1.gcount = ins.remaining.take n := by
  rw [read, if_pos hgood]
  exact List.take_left

theorem remaining_read (hgood : ins.good = true) (buffer : List α) (n : Nat) :
    (ins.read buffer n).1.remaining = ins.remaining.drop n := by
  rw [read, if_pos hgood]

theorem good_read (hgood : ins.good = true) {buffer : List α} {n : Nat}
    (h : (ins.read buffer n).1.ok = true) : (ins.read buffer n).1.good = true := by
  rw [read, if_pos hgood] at h ⊢
  simp only [ok, good, Bool.not_eq_true'] at h ⊢
  rw [h]
  rfl

theorem length_remaining_read_lt {buffer : List α} {n : Nat} (hn : 0 < n)
    (h : (ins.read buffer n).1.ok = true) :
    (ins.read buffer n).1.remaining.length < ins.remaining.length := by
  have hgood := good_of_ok_read h
  have hle := (ok_read_iff hgood buffer n).mp h
  rw [remaining_read hgood, List.length_drop]
  omega

/-! ## Lines -/

section Lines

variable [DecidableEq α] {item : List α} {delim : α}

theorem good_of_ok_getline (h : (ins.getline item delim).1.ok = true) : ins.good = true := by
  by_contra hgood
  rw [getline, if_neg hgood] at h
  cases h

/-- A line that ends with a separator leaves what is behind it. -/
theorem getline_of_cons (hgood : ins.good = true) {sep : α} {rest : List α}
    (hdrop : ins.remaining.dropWhile (fun c => c ≠ delim) = sep :: rest) :
    ins.getline item delim =
      ({ ins with remaining := rest }, ins.remaining.takeWhile fun c => c ≠ delim) := by
  rw [getline, if_pos hgood]
  simp only [hdrop]

/-- The last line ends with the stream. -/
theorem getline_of_nil (hgood : ins.good = true)
    (hdrop : ins.remaining.dropWhile (fun c => c ≠ delim) = []) :
    ins.getline item delim =
      ({ ins with remaining := [], eofbit := true, failbit := ins.remaining.isEmpty },
        ins.remaining) := by
  have hall : ins.remaining.takeWhile (fun c => c ≠ delim) = ins.remaining := by
    have happend := List.takeWhile_append_dropWhile (p := fun c => c ≠ delim) (l := ins.remaining)
    rwa [hdrop, List.append_nil] at happend
  rw [getline, if_pos hgood]
  simp only [hdrop, hall]

theorem length_remaining_getline_lt (h : (ins.getline item delim).1.ok = true) :
    (ins.getline item delim).1.remaining.length < ins.remaining.length := by
  have hgood := good_of_ok_getline h
  cases hdrop : ins.remaining.dropWhile (fun c => c ≠ delim) with
  | nil =>
    rw [getline_of_nil hgood hdrop] at h ⊢
    cases hremaining : ins.remaining with
    | nil =>
      rw [hremaining] at h
      cases h
    | cons c rest => exact Nat.succ_pos _
  | cons sep rest =>
    rw [getline_of_cons hgood hdrop]
    have hsuffix := (List.dropWhile_suffix (l := ins.remaining) fun c => c ≠ delim).length_le
    rw [hdrop, List.length_cons] at hsuffix
    exact hsuffix

end Lines

end IStream
