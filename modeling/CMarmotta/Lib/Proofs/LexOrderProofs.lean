import Mathlib.Data.List.Basic

/-!
# Ranges of the lexicographic order

Among the lists of one length, those between a word padded with the least element and the same word
padded with the greatest one are the lists that start with the word (`isLE_range_iff_take`). Words
made of blocks of one size are compared block by block (`flatMap_inj`).
-/

namespace LexOrder

variable {α : Type} [Ord α]

theorem isLE_then_iff {o o' : Ordering} :
    (o.then o').isLE = true ↔ o = .lt ∨ (o = .eq ∧ o'.isLE = true) := by
  cases o <;> simp [Ordering.then]

/-- A list of least elements is below every list of its length. -/
theorem isLE_compare_replicate_left {bot : α}
    (hbot : ∀ a : α, (compare bot a).isLE = true) (k : List α) :
    (compare (List.replicate k.length bot) k).isLE = true := by
  induction k with
  | nil => rfl
  | cons a k ih =>
    rw [List.length_cons, List.replicate_succ, List.compare_cons_cons, isLE_then_iff]
    have ha := hbot a
    cases h : compare bot a with
    | lt => exact Or.inl rfl
    | eq => exact Or.inr ⟨rfl, ih⟩
    | gt => rw [h] at ha; exact absurd ha (by decide)

theorem isLE_compare_replicate_right {top : α}
    (htop : ∀ a : α, (compare a top).isLE = true) (k : List α) :
    (compare k (List.replicate k.length top)).isLE = true := by
  induction k with
  | nil => rfl
  | cons a k ih =>
    rw [List.length_cons, List.replicate_succ, List.compare_cons_cons, isLE_then_iff]
    have ha := htop a
    cases h : compare a top with
    | lt => exact Or.inl rfl
    | eq => exact Or.inr ⟨rfl, ih⟩
    | gt => rw [h] at ha; exact absurd ha (by decide)

/-- The lists between the two paddings of a word are the ones that start with it. -/
theorem isLE_range_iff_take [Std.OrientedOrd α] [Std.LawfulEqOrd α] {bot top : α}
    (hbot : ∀ a : α, (compare bot a).isLE = true) (htop : ∀ a : α, (compare a top).isLE = true)
    (word : List α) {n : Nat} {k : List α} (hk : k.length = word.length + n) :
    ((compare (word ++ List.replicate n bot) k).isLE = true ∧
      (compare k (word ++ List.replicate n top)).isLE = true) ↔ k.take word.length = word := by
  induction word generalizing k with
  | nil =>
    obtain rfl : k.length = n := by simpa using hk
    simp [isLE_compare_replicate_left hbot, isLE_compare_replicate_right htop]
  | cons a word ih =>
    cases k with
    | nil => simp only [List.length_cons, List.length_nil] at hk; omega
    | cons b k =>
      have hk' : k.length = word.length + n := by simp only [List.length_cons] at hk; omega
      simp only [List.cons_append, List.compare_cons_cons, isLE_then_iff, List.length_cons,
        List.take_succ_cons, List.cons.injEq]
      rw [← ih hk', Std.OrientedOrd.eq_swap (a := b) (b := a)]
      -- Both bounds hold at the first element only if it is the first one of the word.
      by_cases hab : a = b
      · subst hab
        simp
      · have hba : ¬ b = a := fun h => hab h.symm
        cases h : compare a b with
        | lt => simp [hba]
        | eq => exact absurd (Std.LawfulEqOrd.eq_of_compare h) hab
        | gt => simp [hba]

/-! ## Words made of blocks of one size -/

section Blocks

variable {ι β : Type}

theorem length_flatMap_blocks {f : ι → List β} {n : Nat} (l : List ι)
    (hf : ∀ i ∈ l, (f i).length = n) : (l.flatMap f).length = l.length * n := by
  induction l with
  | nil => simp
  | cons i l ih =>
    rw [List.flatMap_cons, List.length_append, hf i List.mem_cons_self,
      ih fun j hj => hf j (List.mem_cons_of_mem _ hj), List.length_cons, Nat.succ_mul, Nat.add_comm]

theorem take_flatMap_blocks {f : ι → List β} {n : Nat} (l l' : List ι)
    (hf : ∀ i ∈ l, (f i).length = n) :
    ((l ++ l').flatMap f).take (l.length * n) = l.flatMap f := by
  rw [List.flatMap_append, ← length_flatMap_blocks l hf, List.take_left]

theorem block_flatMap_blocks {f : ι → List β} {n : Nat} (l : List ι) (i : ι) (l' : List ι)
    (hf : ∀ i, (f i).length = n) :
    (((l ++ i :: l').flatMap f).drop (l.length * n)).take n = f i := by
  rw [List.flatMap_append, ← length_flatMap_blocks l fun i _ => hf i, List.drop_left,
    List.flatMap_cons, ← hf i, List.take_left]

/-- Two words with blocks of the same sizes are equal exactly when their blocks are. -/
theorem flatMap_inj {f g : ι → List β} (l : List ι)
    (h : ∀ i ∈ l, (f i).length = (g i).length) :
    l.flatMap f = l.flatMap g ↔ ∀ i ∈ l, f i = g i := by
  induction l with
  | nil => simp
  | cons i l ih =>
    have hl : ∀ j ∈ l, (f j).length = (g j).length := by
      intro j hj
      exact h j (List.mem_cons_of_mem _ hj)
    rw [List.flatMap_cons, List.flatMap_cons, List.forall_mem_cons, ← ih hl]
    constructor
    · intro he
      exact List.append_inj he (h i List.mem_cons_self)
    · rintro ⟨h1, h2⟩
      rw [h1, h2]

end Blocks

end LexOrder
