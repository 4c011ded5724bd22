import CMarmotta.Persistence.Key

/-!
# The comparators are lawful orders

`Slice::compare` is the lexicographic order of unsigned bytes, and on 64-byte keys
`KeyComparator::Compare` agrees with it, so both can order a database.
-/

namespace CMarmotta

/-- `Slice::compare` is the lexicographic order. -/
theorem sliceCompare_eq_compare (a b : Bytes) : sliceCompare a b = compare a b := by
  induction a generalizing b with
  | nil => cases b <;> simp [sliceCompare, memcmp, Nat.compare_eq_lt]
  | cons x a ih =>
    cases b with
    | nil => simp [sliceCompare, memcmp, Nat.compare_eq_gt]
    | cons y b =>
      have hlen : compare (a.length + 1) (b.length + 1) = compare a.length b.length := by
        simp only [compare, compareOfLessAndEq, Nat.add_lt_add_iff_right, Nat.add_right_cancel_iff]
      have hrec := ih b
      simp only [sliceCompare, memcmp] at hrec
      simp only [sliceCompare, memcmp, List.length_cons, Nat.add_min_add_right,
        List.take_succ_cons, List.compare_cons_cons, hlen]
      rw [Ordering.then_assoc, hrec]

theorem keyCompare_eq_compare (a b : Key) : keyCompare a b = compare a.bytes b.bytes := by
  rw [keyCompare, memcmp, List.take_of_length_le (Nat.le_of_eq a.length_eq),
    List.take_of_length_le (Nat.le_of_eq b.length_eq)]

/-- On keys the two comparisons of the source decide alike. -/
theorem sliceCompare_bytes (a b : Key) : sliceCompare a.bytes b.bytes = keyCompare a b := by
  rw [sliceCompare_eq_compare, keyCompare_eq_compare]

theorem Key.ext_bytes {a b : Key} (h : a.bytes = b.bytes) : a = b := by
  cases a; cases b; cases h; rfl

instance : Std.TransCmp sliceCompare := by
  have h : sliceCompare = compare := funext₂ sliceCompare_eq_compare
  rw [h]; infer_instance

instance : Std.LawfulEqCmp sliceCompare := by
  have h : sliceCompare = compare := funext₂ sliceCompare_eq_compare
  rw [h]; infer_instance

instance : Std.TransCmp keyCompare where
  eq_swap {a b} := by
    rw [keyCompare_eq_compare, keyCompare_eq_compare]; exact Std.OrientedCmp.eq_swap
  isLE_trans {a b c} := by
    simp only [keyCompare_eq_compare]; exact Std.TransCmp.isLE_trans

instance : Std.LawfulEqCmp keyCompare where
  compare_self {a} := by rw [keyCompare_eq_compare]; exact Std.ReflCmp.compare_self
  eq_of_compare {a b} h := by
    rw [keyCompare_eq_compare] at h
    exact Key.ext_bytes (Std.LawfulEqCmp.eq_of_compare h)

end CMarmotta
