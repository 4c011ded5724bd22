import Mathlib.Data.List.Infix

/-!
# Cutting a list at separators

The pieces between the separators, without an empty piece at the end. Joined by separators they are
the list, but for a separator at its end (`pieces_join`), and a piece is empty exactly if the list
starts with a separator or has two in a row (`pieces_ne_nil_iff`).
-/

namespace Separated

variable {α : Type} [DecidableEq α] (delim : α)

omit [DecidableEq α] in
/-- An element in front of the first piece. -/
def consFirst (c : α) : List (List α) → List (List α)
  | [] => [[c]]
  | piece :: rest => (c :: piece) :: rest

/-- The pieces between the separators, without an empty piece at the end. -/
def pieces : List α → List (List α)
  | [] => []
  | c :: s => if c = delim then [] :: pieces s else consFirst c (pieces s)

theorem pieces_of_delim (s : List α) : pieces delim (delim :: s) = [] :: pieces delim s :=
  if_pos rfl

variable {delim}

theorem pieces_of_ne {c : α} (hc : c ≠ delim) (s : List α) :
    pieces delim (c :: s) = consFirst c (pieces delim s) :=
  if_neg hc

theorem pieces_eq_nil_iff {s : List α} : pieces delim s = [] ↔ s = [] := by
  cases s with
  | nil => exact iff_of_true rfl rfl
  | cons c s =>
    refine iff_of_false (fun h => ?_) (List.cons_ne_nil c s)
    by_cases hc : c = delim
    · rw [hc, pieces_of_delim] at h
      cases h
    · rw [pieces_of_ne hc] at h
      cases hp : pieces delim s <;> rw [hp] at h <;> cases h

/-- The first piece ends at the first separator. -/
theorem pieces_eq_cons {s : List α} (hs : s ≠ []) :
    pieces delim s = s.takeWhile (fun c => c ≠ delim) ::
      pieces delim (s.dropWhile fun c => c ≠ delim).tail := by
  induction s with
  | nil => exact absurd rfl hs
  | cons c s ih =>
    by_cases hc : c = delim
    · subst hc
      simp [pieces_of_delim]
    · rw [pieces_of_ne hc]
      cases s with
      | nil => simp [hc, pieces, consFirst]
      | cons c' s => simp [ih (List.cons_ne_nil c' s), hc, consFirst]

theorem not_mem_of_mem_pieces {s piece : List α} (h : piece ∈ pieces delim s) : delim ∉ piece := by
  induction s generalizing piece with
  | nil => exact absurd h List.not_mem_nil
  | cons c s ih =>
    by_cases hc : c = delim
    · rw [hc, pieces_of_delim, List.mem_cons] at h
      rcases h with rfl | h
      · exact List.not_mem_nil
      · exact ih h
    · rw [pieces_of_ne hc] at h
      cases hp : pieces delim s with
      | nil =>
        rw [hp, consFirst, List.mem_singleton] at h
        rw [h, List.mem_singleton]
        exact fun heq => hc heq.symm
      | cons p rest =>
        rw [hp, consFirst, List.mem_cons] at h
        rcases h with rfl | h
        · rw [List.mem_cons, not_or]
          exact ⟨fun heq => hc heq.symm, ih (by rw [hp]; exact List.mem_cons_self)⟩
        · exact ih (by rw [hp]; exact List.mem_cons_of_mem p h)

/-- Every string is its pieces with separators between them, and perhaps one more at the end. -/
theorem pieces_join (s : List α) : s = [delim].intercalate (pieces delim s) ∨
    s = [delim].intercalate (pieces delim s) ++ [delim] := by
  induction s with
  | nil => exact Or.inl rfl
  | cons c s ih =>
    by_cases hc : c = delim
    · subst hc
      rw [pieces_of_delim]
      cases hp : pieces c s with
      | nil =>
        obtain rfl := pieces_eq_nil_iff.mp hp
        exact Or.inr rfl
      | cons p rest =>
        rw [hp] at ih
        have hjoin : [c].intercalate ([] :: p :: rest) = c :: [c].intercalate (p :: rest) := rfl
        rw [hjoin]
        exact ih.imp (congrArg (c :: ·)) (congrArg (c :: ·))
    · rw [pieces_of_ne hc]
      cases hp : pieces delim s with
      | nil =>
        obtain rfl := pieces_eq_nil_iff.mp hp
        exact Or.inl rfl
      | cons p rest =>
        rw [hp] at ih
        have hjoin : [delim].intercalate (consFirst c (p :: rest)) =
            c :: [delim].intercalate (p :: rest) := by
          cases rest <;> rfl
        rw [hjoin]
        exact ih.imp (congrArg (c :: ·)) (congrArg (c :: ·))

/-! ## Empty pieces -/

variable (delim) in
/-- The string neither starts with a separator nor has two of them in a row. -/
def WellSeparated (s : List α) : Prop := s.head? ≠ some delim ∧ ¬ [delim, delim] <:+: s

/-- No piece is empty exactly if the string is well separated, and no piece but perhaps the first
exactly if it has no two separators in a row. -/
theorem pieces_ne_nil_and_tail (s : List α) :
    ((∀ piece ∈ pieces delim s, piece ≠ []) ↔ WellSeparated delim s) ∧
    ((∀ piece ∈ (pieces delim s).tail, piece ≠ []) ↔ ¬ [delim, delim] <:+: s) := by
  induction s with
  | nil => simp [pieces, WellSeparated]
  | cons c s ih =>
    obtain ⟨ihall, ihtail⟩ := ih
    by_cases hc : c = delim
    · subst hc
      have hinfix : [c, c] <:+: c :: s ↔ s.head? = some c ∨ [c, c] <:+: s := by
        rw [List.infix_cons_iff, List.cons_prefix_cons, and_iff_right rfl]
        refine or_congr_left ?_
        cases s with
        | nil => simp
        | cons c' s =>
          rw [List.cons_prefix_cons, List.head?_cons, Option.some.injEq, eq_comm]
          exact and_iff_left (List.nil_prefix)
      rw [pieces_of_delim]
      constructor
      · simp [WellSeparated]
      · rw [List.tail_cons, ihall, WellSeparated, hinfix, not_or]
    · have hinfix : [delim, delim] <:+: c :: s ↔ [delim, delim] <:+: s := by
        rw [List.infix_cons_iff, List.cons_prefix_cons]
        simp [Ne.symm hc]
      have hhead : (c :: s).head? ≠ some delim := by simpa using hc
      have htail : (pieces delim (c :: s)).tail = (pieces delim s).tail := by
        rw [pieces_of_ne hc]
        cases pieces delim s <;> rfl
      have hfirst : (∀ piece ∈ pieces delim (c :: s), piece ≠ []) ↔
          ∀ piece ∈ (pieces delim (c :: s)).tail, piece ≠ [] := by
        rw [pieces_of_ne hc]
        cases pieces delim s <;> simp [consFirst]
      rw [hfirst, htail, ihtail, WellSeparated, hinfix]
      exact ⟨(and_iff_right hhead).symm, Iff.rfl⟩

theorem pieces_ne_nil_iff (s : List α) :
    (∀ piece ∈ pieces delim s, piece ≠ []) ↔ WellSeparated delim s :=
  (pieces_ne_nil_and_tail s).1

end Separated
