import Mathlib.Algebra.BigOperators.Group.Finset.Piecewise
import Mathlib.Algebra.GroupWithZero.Nat
import Mathlib.Algebra.Order.BigOperators.Group.Finset

/-!
# Counting the elements of parts that may overlap

A list of parts covers some elements of a finite set. Adding up the sizes of the parts counts an
element as often as it is covered, so the sum is the number of covered elements exactly if no
element is covered twice.
-/

namespace Coverage

variable {α β : Type} (covers : β → α → Prop) [∀ b a, Decidable (covers b a)]

/-- How many of the parts cover the element. -/
def times (parts : List β) (a : α) : Nat := parts.countP fun b => covers b a

theorem times_cons (b : β) (parts : List β) (a : α) :
    times covers (b :: parts) a = times covers parts a + if covers b a then 1 else 0 := by
  rw [times, List.countP_cons]
  simp only [decide_eq_true_eq]
  rfl

theorem times_pos_iff {parts : List β} {a : α} :
    0 < times covers parts a ↔ ∃ b ∈ parts, covers b a := by
  simp [times, List.countP_pos_iff]

/-- Different parts that have no element in common cover no element twice. -/
theorem times_le_one {parts : List β} (hnodup : parts.Nodup) {a : α}
    (hapart : ∀ b b', covers b a → covers b' a → b = b') : times covers parts a ≤ 1 := by
  induction parts with
  | nil => exact Nat.zero_le 1
  | cons b parts ih =>
    obtain ⟨hb, hparts⟩ := List.nodup_cons.mp hnodup
    rw [times_cons]
    by_cases hcovers : covers b a
    · have hzero : times covers parts a = 0 := by
        by_contra hne
        obtain ⟨b', hb', hcovers'⟩ := (times_pos_iff covers).mp (Nat.pos_of_ne_zero hne)
        exact hb (hapart b b' hcovers hcovers' ▸ hb')
      rw [if_pos hcovers, hzero]
    · rw [if_neg hcovers]
      exact ih hparts

/-- The sizes of the parts add up to the times that the elements are covered. -/
theorem sum_card_eq_sum_times (S : Finset α) (parts : List β) :
    (parts.map fun b => (S.filter (covers b)).card).sum = ∑ a ∈ S, times covers parts a := by
  induction parts with
  | nil => simp [times]
  | cons b parts ih =>
    rw [List.map_cons, List.sum_cons, ih, Finset.card_filter, ← Finset.sum_add_distrib]
    refine Finset.sum_congr rfl fun a _ => ?_
    rw [times_cons, Nat.add_comm]

/-- The sizes of the parts add up to the number of the elements covered exactly when no element is
covered twice. -/
theorem sum_card_eq_card_iff (S : Finset α) (parts : List β) :
    (parts.map fun b => (S.filter (covers b)).card).sum =
        (S.filter fun a => ∃ b ∈ parts, covers b a).card ↔
      ∀ a ∈ S, times covers parts a ≤ 1 := by
  have hle : ∀ a ∈ S, (if ∃ b ∈ parts, covers b a then 1 else 0) ≤ times covers parts a := by
    intro a _
    split
    · rename_i h
      exact (times_pos_iff covers).mpr h
    · exact Nat.zero_le _
  rw [sum_card_eq_sum_times, Finset.card_filter, eq_comm, Finset.sum_eq_sum_iff_of_le hle]
  refine forall₂_congr fun a _ => ?_
  have hpos : 0 < times covers parts a ↔ ∃ b ∈ parts, covers b a := times_pos_iff covers
  split <;> rename_i h
  · have := hpos.mpr h
    omega
  · have := mt hpos.mp h
    omega

end Coverage
