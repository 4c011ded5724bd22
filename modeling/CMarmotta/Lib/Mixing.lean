import Mathlib.Logic.Function.Basic
import Mathlib.Data.List.Basic

/-!
# Steps of hash functions that lose nothing

Hash functions are built of steps that can be undone: the multiplication by an odd number, the
rotation, and the exclusive or of a word with its own upper half. A loop of such steps tells any two
inputs apart that differ in one step only (`step_eq_of_foldl_eq`).
-/

namespace Mixing

section Words

variable {w : Nat}

theorem mul_injective {c d : BitVec w} (h : c * d = 1#w) :
    Function.Injective fun x : BitVec w => x * c := by
  intro x y hxy
  have hmul : x * c * d = y * c * d := congrArg (· * d) hxy
  rwa [BitVec.mul_assoc, BitVec.mul_assoc, h, BitVec.mul_one, BitVec.mul_one] at hmul

theorem rotateLeft_injective (r : Nat) : Function.Injective fun x : BitVec w => x.rotateLeft r := by
  intro x y hxy
  refine BitVec.eq_of_getLsbD_eq fun i hi => ?_
  -- The bit `i` of a word is the bit `i + r` of the rotated one, counted modulo the width.
  have hbit := congrArg (fun z : BitVec w => z.getLsbD ((i + r % w) % w)) hxy
  have hr : r % w < w := Nat.mod_lt r (by omega)
  simp only [BitVec.getLsbD_rotateLeft] at hbit
  by_cases hwrap : i + r % w < w
  · rw [Nat.mod_eq_of_lt hwrap] at hbit
    have hge : ¬ i + r % w < r % w := by omega
    simpa [hwrap, hge] using hbit
  · have hmod : (i + r % w) % w = i + r % w - w := by
      rw [Nat.mod_eq_sub_mod (by omega), Nat.mod_eq_of_lt (by omega)]
    rw [hmod] at hbit
    have hlt : i + r % w - w < r % w := by omega
    have hback : w - r % w + (i + r % w - w) = i := by omega
    simpa [hlt, hback] using hbit

theorem xorShift_injective {r : Nat} (h : w ≤ 2 * r) :
    Function.Injective fun x : BitVec w => x ^^^ (x >>> r) := by
  have hundo : ∀ x : BitVec w, (x ^^^ (x >>> r)) ^^^ ((x ^^^ (x >>> r)) >>> r) = x := by
    intro x
    refine BitVec.eq_of_getLsbD_eq fun i hi => ?_
    have hhigh : x.getLsbD (r + (r + i)) = false := BitVec.getLsbD_of_ge x _ (by omega)
    simp only [BitVec.getLsbD_xor, BitVec.getLsbD_ushiftRight, hhigh, Bool.xor_false,
      Bool.xor_assoc, Bool.xor_self]
  intro x y hxy
  rw [← hundo x, ← hundo y]
  exact congrArg (fun z : BitVec w => z ^^^ (z >>> r)) hxy

end Words

section Loop

variable {σ ι : Type}

theorem foldl_injective {f : σ → ι → σ} (hf : ∀ i, Function.Injective fun s => f s i) (l : List ι) :
    Function.Injective fun s => l.foldl f s := by
  induction l with
  | nil => exact fun s t h => h
  | cons i l ih => exact fun s t h => hf i (ih h)

/-- Two loops that differ in one step, and come to the same result, agree in that step. -/
theorem step_eq_of_foldl_eq {f g : σ → ι → σ} (hg : ∀ i, Function.Injective fun s => g s i)
    {l : List ι} (hnodup : l.Nodup) {j : ι} (hj : j ∈ l)
    (hothers : ∀ i, i ≠ j → ∀ s, f s i = g s i) {s : σ} (h : l.foldl f s = l.foldl g s) :
    ∃ t, f t j = g t j := by
  obtain ⟨pre, post, rfl⟩ := List.append_of_mem hj
  obtain ⟨-, hpost, hapart⟩ := List.nodup_append.mp hnodup
  have heq : ∀ l : List ι, j ∉ l → ∀ s, l.foldl f s = l.foldl g s := by
    intro l hl s
    refine List.foldl_ext f g s fun s i hi => hothers i ?_ s
    rintro rfl
    exact hl hi
  have hpre : j ∉ pre := fun hmem => hapart j hmem j List.mem_cons_self rfl
  rw [List.foldl_append, List.foldl_append, heq pre hpre, List.foldl_cons, List.foldl_cons,
    heq post (List.nodup_cons.mp hpost).1] at h
  exact ⟨_, foldl_injective hg post h⟩

end Loop

end Mixing
