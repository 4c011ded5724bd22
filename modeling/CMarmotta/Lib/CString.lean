import Mathlib.Data.List.TakeWhile

/-!
# Strings that end at a zero character

A string handed over by its address alone is what stands before the first zero character.
-/

/-- A string without a zero character. -/
structure CString where
  text : String
  noNul : ¬ '\x00' ∈ text.toList
  deriving DecidableEq

namespace CString

/-- The string at the address of `s`. -/
def ofString (s : String) : CString where
  text := String.ofList (s.toList.takeWhile fun c => c ≠ '\x00')
  noNul h := by
    rw [String.toList_ofList] at h
    have hc := List.mem_takeWhile_imp h
    exact absurd hc (by decide)

/-- No zero character in a string. -/
def NulFree (s : String) : Prop := '\x00' ∉ s.toList

instance (s : String) : Decidable (NulFree s) := inferInstanceAs (Decidable (_ ∉ _))

/-- A string arrives whole exactly if it has no zero character. -/
theorem nulFree_iff {s : String} : NulFree s ↔ (ofString s).text = s := by
  refine Iff.symm ?_
  constructor
  · intro h
    rw [← h]
    exact (ofString s).noNul
  · intro h
    have hall : s.toList.takeWhile (fun c => c ≠ '\x00') = s.toList := by
      rw [List.takeWhile_eq_self_iff]
      intro c hc
      exact decide_eq_true fun hz => h (hz ▸ hc)
    show String.ofList (s.toList.takeWhile fun c => c ≠ '\x00') = s
    rw [hall, String.ofList_toList]

end CString
