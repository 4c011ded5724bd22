import CMarmotta.Model.X64
import CMarmotta.Persistence.Proofs.QueryProofs
import CMarmotta.Util.Proofs.Murmur3Proofs

/-!
# Which statements have different keys

The keys of a statement are hashes of its parts, and what the store says about patterns rests on the
hash telling parts apart. `MurmurHash3_x64_128` does so for parts of the same length that differ
only within one block of sixteen bytes: resources with numbered names, for example, or short ones.
-/

namespace CMarmotta

open Murmur3

section OneBlock

variable [Platform]

/-- The statements differ, part by part, within one block. -/
def Statement.DifferInOneBlock (s t : Statement) : Prop :=
  ∀ pos, Murmur3.DifferInOneBlock (s.part pos) (t.part pos)

theorem part_eq_of_stmtHash_eq (hx64 : ∀ b, (Platform.murmur3 b).bytes = murmurHash3X64128 b 13)
    {s t : Statement} {pos : Position} (h : Murmur3.DifferInOneBlock (s.part pos) (t.part pos))
    (heq : stmtHash s pos = stmtHash t pos) : s.part pos = t.part pos := by
  have hhash : murmurHash3X64128 (s.part pos) 13 = murmurHash3X64128 (t.part pos) 13 := by
    rw [← hx64, ← hx64]
    exact congrArg Hash.bytes heq
  exact murmurHash3X64128_injective h hhash

/-- `MurmurHash3_x64_128` tells inputs of the same length apart that differ only within one block of
sixteen bytes. So on a platform that hashes with it, statements that differ, part by part, only within
one block have no parts with the same hash, and well-formed ones have different keys in every
index. -/
theorem collisionFree_of_oneBlock
    (hx64 : ∀ b, (Platform.murmur3 b).bytes = murmurHash3X64128 b 13) :
    (∀ a b seed, Murmur3.DifferInOneBlock a b →
      murmurHash3X64128 a seed = murmurHash3X64128 b seed → a = b) ∧
    ∀ K : List Statement, (∀ s ∈ K, ∀ t ∈ K, s.DifferInOneBlock t) →
      CollisionFree K ∧ ((∀ s ∈ K, s.WellFormed) →
        ∀ s ∈ K, ∀ t ∈ K, ∀ idx, stmtKey idx s = stmtKey idx t ↔ s = t) := by
  refine ⟨fun a b seed h heq => murmurHash3X64128_injective h heq, fun K h => ⟨?_, ?_⟩⟩
  · intro s hs t ht pos
    exact part_eq_of_stmtHash_eq hx64 (h s hs t ht pos)
  · intro hwf s hs t ht idx
    constructor
    · intro hkey
      have hhash := (stmtKey_inj_iff idx).mp hkey
      exact eq_of_part_eq (hwf s hs) (hwf t ht) fun pos =>
        part_eq_of_stmtHash_eq hx64 (h s hs t ht pos) (hhash pos)
    · rintro rfl
      rfl

end OneBlock

/-- Inputs of at most sixteen bytes have one block. -/
theorem Murmur3.DifferInOneBlock.of_short {a b : Bytes} (hlen : a.length = b.length)
    (h16 : a.length ≤ 16) : Murmur3.DifferInOneBlock a b := by
  refine ⟨hlen, 0, fun i hi => ?_⟩
  rw [List.getElem?_eq_none (by omega), List.getElem?_eq_none (by omega)]

theorem collisionFree_of_oneBlock_numbered :
    stmtKey .PCOS (.ofUris "urn:1" "urn:p" "urn:2") ≠
      stmtKey .PCOS (.ofUris "urn:3" "urn:p" "urn:4") := by
  have hshort : ∀ s ∈ [Statement.ofUris "urn:1" "urn:p" "urn:2", .ofUris "urn:3" "urn:p" "urn:4"],
      ∀ t ∈ [Statement.ofUris "urn:1" "urn:p" "urn:2", .ofUris "urn:3" "urn:p" "urn:4"],
        ∀ pos, (s.part pos).length = (t.part pos).length ∧ (s.part pos).length ≤ 16 := by
    decide +kernel
  have hkeys := ((collisionFree_of_oneBlock fun _ => rfl).2 _ fun s hs t ht pos =>
    .of_short (hshort s hs t ht pos).1 (hshort s hs t ht pos).2).2 (by decide)
  intro hkey
  have heq := (hkeys _ List.mem_cons_self _ (List.mem_cons_of_mem _ List.mem_cons_self) .PCOS).mp hkey
  revert heq
  decide

end CMarmotta
