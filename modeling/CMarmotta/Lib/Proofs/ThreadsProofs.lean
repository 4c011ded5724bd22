import CMarmotta.Lib.Threads
import Mathlib.Algebra.BigOperators.Group.Finset.Basic
import Mathlib.Data.Fintype.BigOperators

/-!
# What threads that share a writer or a counter leave

An interleaving holds the items of all threads (`Interleaves.coe_eq_sum`). Additions that do not
overlap leave the sum of the amounts (`addAll_eq_sum`).
-/

namespace Threads

variable {ι α : Type} [DecidableEq ι]

/-! ## Interleavings -/

/-- What a sum over the threads becomes when one of them moves on. -/
theorem sum_update_add {β M : Type} [Fintype ι] [AddCommMonoid M] (f : β → M) (items : ι → β)
    (i : ι) (b : β) :
    ∑ j, f (Function.update items i b j) + f (items i) = ∑ j, f (items j) + f b := by
  have hothers : ∑ j ∈ Finset.univ.erase i, f (Function.update items i b j) =
      ∑ j ∈ Finset.univ.erase i, f (items j) := by
    refine Finset.sum_congr rfl fun j hj => ?_
    rw [Function.update_of_ne (Finset.ne_of_mem_erase hj)]
  rw [← Finset.add_sum_erase _ _ (Finset.mem_univ i), hothers, Function.update_self,
    ← Finset.add_sum_erase _ (fun j => f (items j)) (Finset.mem_univ i), add_comm (f b),
    add_right_comm, add_comm (f (items i)), add_right_comm]

theorem sum_update [Fintype ι] {items : ι → List α} {i : ι} {a : α} {rest : List α}
    (hi : items i = a :: rest) :
    ∑ j, (items j : Multiset α) =
      a ::ₘ ∑ j, ((Function.update items i rest j : List α) : Multiset α) := by
  have hsum := sum_update_add (fun l : List α => (l : Multiset α)) items i rest
  rw [hi, ← Multiset.cons_coe, Multiset.add_cons, ← Multiset.cons_add] at hsum
  exact (add_right_cancel hsum).symm

/-- An interleaving holds the items of all threads. -/
theorem Interleaves.coe_eq_sum [Fintype ι] {items : ι → List α} {l : List α}
    (h : Interleaves items l) : (l : Multiset α) = ∑ i, (items i : Multiset α) := by
  induction h with
  | nil h => simp [h]
  | cons i a rest hi _ ih => rw [sum_update hi, ← ih, Multiset.cons_coe]

/-- An interleaving of lists that have nothing in common has no duplicates. -/
theorem Interleaves.nodup [Fintype ι] [DecidableEq α] {items : ι → List α} {l : List α}
    (h : Interleaves items l) (hnodup : ∀ i, (items i).Nodup)
    (hapart : ∀ i j a, a ∈ items i → a ∈ items j → i = j) : l.Nodup := by
  rw [← Multiset.coe_nodup, h.coe_eq_sum, Multiset.nodup_iff_count_le_one]
  intro a
  rw [Multiset.count_sum']
  by_cases hex : ∃ i, a ∈ items i
  · obtain ⟨i, hi⟩ := hex
    rw [Finset.sum_eq_single i]
    · rw [Multiset.coe_count]
      exact List.nodup_iff_count_le_one.mp (hnodup i) a
    · intro j _ hj
      rw [Multiset.coe_count, List.count_eq_zero]
      exact fun hmem => hj (hapart j i a hmem hi)
    · exact fun hi' => absurd (Finset.mem_univ i) hi'
  · rw [Finset.sum_eq_zero]
    · exact Nat.zero_le 1
    · intro i _
      rw [Multiset.coe_count, List.count_eq_zero]
      exact fun hmem => hex ⟨i, hmem⟩

/-- Threads that run to completion produce some interleaving. -/
theorem exists_interleaves [Fintype ι] (items : ι → List α) : ∃ l, Interleaves items l := by
  induction hn : Multiset.card (∑ i, (items i : Multiset α)) generalizing items with
  | zero =>
    refine ⟨[], .nil fun i => ?_⟩
    rw [Multiset.card_sum, Finset.sum_eq_zero_iff] at hn
    exact List.length_eq_zero_iff.mp (hn i (Finset.mem_univ i))
  | succ n ih =>
    have hne : ∃ i, items i ≠ [] := by
      by_contra hall
      simp only [not_exists, not_not] at hall
      simp [hall] at hn
    obtain ⟨i, hi⟩ := hne
    obtain ⟨a, rest, hcons⟩ := List.exists_cons_of_ne_nil hi
    rw [sum_update hcons, Multiset.card_cons, Nat.succ.injEq] at hn
    obtain ⟨l, hl⟩ := ih _ hn
    exact ⟨a :: l, .cons i a rest hcons hl⟩

/-! ## Additions -/

/-- One addition after another: each thread adds once, and the amounts add up. -/
theorem foldlM_additions {amount : ι → Nat} {order : List ι} {c c' : Counter ι}
    (h : (order.flatMap addition).foldlM (Counter.step amount) c = some c') :
    c'.value = c.value + ∑ i ∈ order.toFinset, amount i ∧
      (∀ i ∈ order, c.phase i = .waiting) ∧
      ∀ i, c'.phase i = if i ∈ order then .finished else c.phase i := by
  induction order generalizing c with
  | nil =>
    obtain rfl : c = c' := Option.some.inj h
    simp
  | cons i order ih =>
    rw [List.flatMap_cons, List.foldlM_append] at h
    obtain ⟨c₂, h₂, h⟩ := Option.bind_eq_some_iff.mp h
    -- The thread loads the value and stores the sum at once.
    have hwait : c.phase i = .waiting ∧
        c₂ = ⟨c.value + amount i, Function.update c.phase i .finished⟩ := by
      simp only [addition, List.foldlM_cons, List.foldlM_nil, Counter.step] at h₂
      split at h₂
      · rename_i hphase
        simp only [Option.bind_eq_bind, Option.bind_some, Function.update_self,
          Function.update_idem] at h₂
        exact ⟨hphase, (Option.some.inj h₂).symm⟩
      · cases h₂
    obtain ⟨hphase, rfl⟩ := hwait
    obtain ⟨hvalue, hwaiting, hfinal⟩ := ih h
    have hnot : i ∉ order := by
      intro hi
      have hwi := hwaiting i hi
      simp at hwi
    refine ⟨?_, ?_, ?_⟩
    · rw [hvalue, List.toFinset_cons, Finset.sum_insert (by simpa using hnot), ← Nat.add_assoc]
    · intro j hj
      rcases List.mem_cons.mp hj with rfl | hj
      · exact hphase
      · have hji : j ≠ i := fun he => hnot (he ▸ hj)
        simpa [hji] using hwaiting j hj
    · intro j
      rw [hfinal]
      by_cases hji : j = i
      · subst hji
        simp
      · simp [hji]

/-- Additions that do not overlap leave the sum of the amounts. -/
theorem addAll_eq_sum [Fintype ι] {amount : ι → Nat} {accesses : List (Access ι)} {r : Nat}
    (hseq : OneAfterAnother accesses) (h : addAll amount accesses = some r) :
    r = ∑ i, amount i := by
  obtain ⟨order, rfl⟩ := hseq
  obtain ⟨c, hc, hr⟩ := Option.bind_eq_some_iff.mp h
  obtain ⟨hvalue, -, hfinal⟩ := foldlM_additions hc
  split at hr
  · rename_i hall
    obtain rfl := Option.some.inj hr
    have huniv : order.toFinset = Finset.univ := by
      refine Finset.eq_univ_iff_forall.mpr fun i => List.mem_toFinset.mpr ?_
      by_contra hi
      have hphase := hfinal i
      rw [hall i, if_neg hi] at hphase
      cases hphase
    rw [hvalue, huniv]
    exact Nat.zero_add _
  · cases hr

theorem exists_addAll [Fintype ι] (amount : ι → Nat) :
    ∃ accesses r, OneAfterAnother accesses ∧ addAll amount accesses = some r := by
  have hrun : ∀ (order : List ι) (c : Counter ι), order.Nodup →
      (∀ i ∈ order, c.phase i = .waiting) →
      ∃ c', (order.flatMap addition).foldlM (Counter.step amount) c = some c' := by
    intro order
    induction order with
    | nil => exact fun c _ _ => ⟨c, rfl⟩
    | cons i order ih =>
      intro c hnodup hwait
      obtain ⟨hnot, hnodup⟩ := List.nodup_cons.mp hnodup
      obtain ⟨c', hc'⟩ := ih ⟨c.value + amount i, Function.update c.phase i .finished⟩ hnodup (by
        intro j hj
        have hji : j ≠ i := fun he => hnot (he ▸ hj)
        simpa [hji] using hwait j (List.mem_cons_of_mem _ hj))
      refine ⟨c', ?_⟩
      rw [List.flatMap_cons, List.foldlM_append]
      have hadd : (addition i).foldlM (Counter.step amount) c =
          some ⟨c.value + amount i, Function.update c.phase i .finished⟩ := by
        simp [addition, Counter.step, hwait i List.mem_cons_self]
      rw [hadd]
      exact hc'
  obtain ⟨c, hc⟩ := hrun Finset.univ.toList Counter.start (Finset.nodup_toList _) fun _ _ => rfl
  refine ⟨_, c.value, ⟨Finset.univ.toList, rfl⟩, ?_⟩
  have hfinal := (foldlM_additions hc).2.2
  rw [addAll, hc]
  exact if_pos fun i => by rw [hfinal, if_pos (Finset.mem_toList.mpr (Finset.mem_univ i))]

end Threads
