import CMarmotta.Persistence.Proofs.StoreProofs
import CMarmotta.Model.X64

/-!
# Scans of a key range

A pattern that sets the first fields of an index has as its key range the keys that start with the
hashes of these fields, so a scan of the index delivers the entries under such keys
(`keyRange_iff_fieldHashes`).
-/

namespace CMarmotta

open KV Platform

section Ranges

variable [Platform]

/-- The hashes of some serialized fields, one after the other. -/
def fieldHashes (fields : List Bytes) : Bytes := fields.flatMap fun m => (murmur3 m).bytes

variable {pattern : Statement} {idx : IndexType} {k : Nat} {fields : List Bytes}

/-- A key lies in the key range exactly when it starts with the hashes of the fields set. -/
theorem key_mem_range_iff_fieldHashes (hk : k ≤ 4)
    (hset : (idx.order.map pattern.part?).take k = fields.map some)
    (hnext : k < 4 → (idx.order.map pattern.part?)[k]? = some none) (key : Key) :
    ((keyCompare ((patternQuery pattern).setType idx).minKey key).isLE = true ∧
      (keyCompare key ((patternQuery pattern).setType idx).maxKey).isLE = true) ↔
      key.bytes.take (k * keyLength) = fieldHashes fields := by
  have h4 : idx.order.length = 4 := by cases idx <;> rfl
  have hlength : (idx.order.take k).length = k := by
    rw [List.length_take, h4, Nat.min_eq_left hk]
  have hblocks : ((idx.order.take k).flatMap fun pos => partBlock (pattern.part? pos)) =
      fieldHashes fields := by
    rw [← List.flatMap_map pattern.part? partBlock, List.map_take, hset, List.flatMap_map]
    rfl
  rw [key_mem_range_iff, leading_of_fields hset hnext, hlength, hblocks]

omit [Platform] in
/-- A scan visits its entries in the order of the keys. -/
theorem pairwise_rangeIterator (db : StmtDB) (lo hi : Key) :
    (rangeIterator db lo hi).Pairwise fun a b => keyCompare a.1 b.1 = .lt := by
  rw [rangeIterator_eq_filter]
  exact Std.ExtTreeMap.ordered_keys_toList.filter _

/-- A pattern sets the first `k` fields in the order of an index, and not the next one. Then the
keys between its bounds are those that start with the hashes of these fields. The two comparisons of
the source decide alike on keys, so a scan of any index delivers the entries under such keys, each
once and in ascending order. -/
theorem keyRange_iff_fieldHashes (hk : k ≤ 4)
    (hset : (idx.order.map pattern.part?).take k = fields.map some)
    (hnext : k < 4 → (idx.order.map pattern.part?)[k]? = some none) :
    (∀ key : Key,
      ((keyCompare ((patternQuery pattern).setType idx).minKey key).isLE = true ∧
        (keyCompare key ((patternQuery pattern).setType idx).maxKey).isLE = true) ↔
        key.bytes.take (k * keyLength) = fieldHashes fields) ∧
    (∀ a b : Key, sliceCompare a.bytes b.bytes = keyCompare a b) ∧
    ∀ db : StmtDB, ∃ entries : List (Key × Bytes),
      rangeIterator db ((patternQuery pattern).setType idx).minKey
        ((patternQuery pattern).setType idx).maxKey = entries ∧
      (∀ key value, (key, value) ∈ entries ↔
        db[key]? = some value ∧ key.bytes.take (k * keyLength) = fieldHashes fields) ∧
      entries.Nodup ∧ entries.Pairwise fun a b => keyCompare a.1 b.1 = .lt := by
  have hrange := key_mem_range_iff_fieldHashes hk hset hnext
  refine ⟨hrange, sliceCompare_bytes, fun db => ⟨_, rfl, fun key value => ?_, ?_, ?_⟩⟩
  · rw [rangeIterator_eq_filter, List.mem_filter, Bool.and_eq_true, hrange,
      Std.ExtTreeMap.mem_toList_iff_getElem?_eq_some]
  · rw [rangeIterator_eq_filter]
    exact (nodup_toList db).filter _
  · exact pairwise_rangeIterator db _ _

end Ranges

/-- A pattern for a predicate in a graph. -/
def predicateInGraph : Statement :=
  { predicate := some ⟨"http://p/"⟩, context := some (.uri ⟨"http://g/"⟩) }

theorem keyRange_of_predicateInGraph :
    (patternQuery predicateInGraph).setType .PCOS = patternQuery predicateInGraph ∧
      ∀ key : Key,
        ((keyCompare ((patternQuery predicateInGraph).setType .PCOS).minKey key).isLE = true ∧
          (keyCompare key ((patternQuery predicateInGraph).setType .PCOS).maxKey).isLE = true) ↔
          key.bytes.take (2 * keyLength) =
            fieldHashes [uriCodec.serialize ⟨"http://p/"⟩,
              resourceCodec.serialize (.uri ⟨"http://g/"⟩)] :=
  ⟨rfl, (keyRange_iff_fieldHashes (by decide) rfl fun _ => rfl).1⟩

end CMarmotta
