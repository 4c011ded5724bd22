import CMarmotta.Persistence.Spec
import CMarmotta.Lib.Proofs.LexOrderProofs
import Mathlib.Data.List.TakeWhile

/-!
# Keys and key ranges

The keys the source computes are the keys of the specification (`computeKey_eq_stmtKey`,
`orderKey_eq_stmtKey`), and the key range of a pattern contains the key of a statement exactly when
the pattern selects the statement (`stmtKey_mem_range_iff`).
-/

namespace CMarmotta

variable [Platform]

open Platform LexOrder

/-! ## The loops over the parts -/

section Loops

omit [Platform]

theorem Hash.bytes_inj {a b : Hash} : a.bytes = b.bytes ↔ a = b := by
  constructor
  · intro h
    cases a
    cases b
    cases h
    rfl
  · intro h
    rw [h]

theorem Key.bytes_inj {a b : Key} : a.bytes = b.bytes ↔ a = b :=
  ⟨Key.ext_bytes, fun h => by rw [h]⟩

theorem take_memcpy {dest : Bytes} (src : Bytes) {offset : Nat} (h : offset ≤ dest.length) :
    (memcpy dest offset src).take (offset + src.length) = dest.take offset ++ src := by
  have hlen : (dest.take offset ++ src).length = offset + src.length := by simp [h]
  rw [memcpy, ← hlen, List.take_left]

theorem drop_memcpy {dest : Bytes} (src : Bytes) {offset : Nat} (h : offset ≤ dest.length) (n : Nat) :
    (memcpy dest offset src).drop (offset + src.length + n) =
      dest.drop (offset + src.length + n) := by
  have hlen : (dest.take offset ++ src).length = offset + src.length := by simp [h]
  rw [memcpy, ← List.drop_drop, ← hlen, List.drop_left, hlen, List.drop_drop]

theorem Key.drop_bytes_eq_nil (k : Key) {n : Nat} (h : n = 4 * keyLength) : k.bytes.drop n = [] :=
  List.drop_eq_nil_of_le (Nat.le_of_eq (k.length_eq.trans h.symm))

/-- Blocks copied into a buffer one after the other, from an offset on. Both loops over the parts
do this. -/
def copyBlocks (offset : Nat) : List Bytes → Bytes → Bytes
  | [], dest => dest
  | block :: blocks, dest =>
    copyBlocks (offset + keyLength) blocks (memcpy dest offset block)

theorem copyBlocks_eq {blocks : List Bytes} (hblocks : ∀ b ∈ blocks, b.length = keyLength)
    (offset : Nat) (dest : Bytes) (h : offset + blocks.length * keyLength ≤ dest.length) :
    copyBlocks offset blocks dest =
      dest.take offset ++ blocks.flatten ++ dest.drop (offset + blocks.length * keyLength) := by
  induction blocks generalizing offset dest with
  | nil => simp [copyBlocks]
  | cons block blocks ih =>
    obtain ⟨hblock, hrest⟩ := List.forall_mem_cons.mp hblocks
    rw [List.length_cons, Nat.succ_mul] at h
    have hcpy : (memcpy dest offset block).length = dest.length := length_memcpy (by omega)
    have htake := take_memcpy block (show offset ≤ dest.length by omega)
    have hdrop := drop_memcpy block (show offset ≤ dest.length by omega)
      (blocks.length * keyLength)
    rw [hblock] at htake hdrop
    have hoffset : offset + (blocks.length * keyLength + keyLength) =
        offset + keyLength + blocks.length * keyLength := by omega
    rw [copyBlocks, ih hrest _ _ (by omega), htake, hdrop, List.flatten_cons, List.length_cons,
      Nat.succ_mul, hoffset, List.append_assoc (dest.take offset)]

theorem orderKeyLoop_eq_copyBlocks (src : Key) (l : List Position) (offset : Nat) (dest : Bytes) :
    orderKeyLoop offset src l dest = copyBlocks offset (l.map (keyBlock src)) dest := by
  induction l generalizing offset dest with
  | nil => rfl
  | cons m l ih => exact ih _ _

theorem orderKeyLoop_eq (src : Key) (l : List Position) (offset : Nat) (dest : Bytes)
    (h : offset + l.length * keyLength ≤ dest.length) :
    orderKeyLoop offset src l dest =
      dest.take offset ++ l.flatMap (keyBlock src) ++
        dest.drop (offset + l.length * keyLength) := by
  have hblocks : ∀ b ∈ l.map (keyBlock src), b.length = keyLength := by
    rw [List.forall_mem_map]
    exact fun m _ => length_keyBlock src m
  rw [orderKeyLoop_eq_copyBlocks, copyBlocks_eq hblocks _ _ (by rwa [List.length_map]),
    List.length_map, List.flatMap_def]

end Loops

/-- The block `computeKey` writes for a part, if there is one. -/
def partBlock (m : Option Bytes) : Bytes := (m.map fun b => (murmur3 b).bytes).getD []

theorem length_partBlock {m : Option Bytes} (h : m.isSome = true) :
    (partBlock m).length = keyLength := by
  obtain ⟨b, rfl⟩ := Option.isSome_iff_exists.mp h
  exact (murmur3 b).length_eq

theorem computeKeyLoop_eq_copyBlocks {ι : Type} (f : ι → Option Bytes) (l : List ι) (offset : Nat)
    (result : Bytes) : computeKeyLoop offset (l.map f) result =
      copyBlocks offset ((l.takeWhile fun i => (f i).isSome).map fun i => partBlock (f i))
        result := by
  induction l generalizing offset result with
  | nil => rfl
  | cons i l ih =>
    cases hi : f i with
    | none => simp [computeKeyLoop, copyBlocks, hi]
    | some m =>
      have hlead : ((i :: l).takeWhile fun i => (f i).isSome) =
          i :: l.takeWhile fun i => (f i).isSome := by simp [hi]
      rw [List.map_cons, hi, computeKeyLoop, ih, hlead, List.map_cons, copyBlocks, hi]
      rfl

/-- `computeKey` writes the hashes of the parts before the first missing one and leaves the rest of
the buffer. -/
theorem computeKeyLoop_map {ι : Type} (f : ι → Option Bytes) (l : List ι) (offset : Nat)
    (result : Bytes) (h : offset + l.length * keyLength ≤ result.length) :
    computeKeyLoop offset (l.map f) result =
      result.take offset ++ (l.takeWhile fun i => (f i).isSome).flatMap (fun i => partBlock (f i)) ++
        result.drop (offset + (l.takeWhile fun i => (f i).isSome).length * keyLength) := by
  have hblocks : ∀ b ∈ (l.takeWhile fun i => (f i).isSome).map fun i => partBlock (f i),
      b.length = keyLength := by
    rw [List.forall_mem_map]
    exact fun i hi => length_partBlock (List.mem_takeWhile_imp (p := fun i => (f i).isSome) hi)
  have hle : (l.takeWhile fun i => (f i).isSome).length * keyLength ≤ l.length * keyLength :=
    Nat.mul_le_mul_right _ (List.takeWhile_prefix _).length_le
  rw [computeKeyLoop_eq_copyBlocks,
    copyBlocks_eq hblocks _ _ (by rw [List.length_map]; omega), List.length_map,
    List.flatMap_def]

/-! ## The keys of a statement -/

/-- The key `AddStatement` and `RemoveStatements` compute is the key of the statement in SPOC. -/
theorem computeKey_eq_stmtKey (s : Statement) :
    computeKey (some (resourceCodec.serialize s.getSubject))
      (some (uriCodec.serialize s.getPredicate)) (some (valueCodec.serialize s.getObject))
      (some (resourceCodec.serialize s.getContext)) (Key.fill 0) = stmtKey .SPOC s := by
  have h := computeKeyLoop_map (fun pos => some (s.part pos)) IndexType.SPOC.order 0
    (Key.fill 0).bytes (by rw [Key.length_eq]; simp [IndexType.order])
  have hlead : (IndexType.SPOC.order.takeWhile fun pos => (some (s.part pos)).isSome) =
      IndexType.SPOC.order := rfl
  rw [hlead, List.take_zero, List.nil_append, Nat.zero_add, Key.drop_bytes_eq_nil _ (by rfl),
    List.append_nil] at h
  exact Key.ext_bytes h

theorem stmtKey_bytes (idx : IndexType) (s : Statement) :
    (stmtKey idx s).bytes = idx.order.flatMap fun pos => (stmtHash s pos).bytes := rfl

theorem keyBlock_stmtKey (s : Statement) (pos : Position) :
    keyBlock (stmtKey .SPOC s) pos = (stmtHash s pos).bytes := by
  have hlen (m : Position) : (stmtHash s m).bytes.length = keyLength := (stmtHash s m).length_eq
  cases pos with
  | S => exact block_flatMap_blocks [] .S [.P, .O, .C] hlen
  | P => exact block_flatMap_blocks [.S] .P [.O, .C] hlen
  | O => exact block_flatMap_blocks [.S, .P] .O [.C] hlen
  | C => exact block_flatMap_blocks [.S, .P, .O] .C [] hlen

/-- Reordering the key of a statement in SPOC gives its key in the other index. -/
theorem orderKey_eq_stmtKey (idx : IndexType) (s : Statement) {a b c d : Position}
    (h : idx.order = [a, b, c, d]) :
    orderKey (Key.fill 0) (stmtKey .SPOC s) a b c d = stmtKey idx s := by
  have hloop := orderKeyLoop_eq (stmtKey .SPOC s) [a, b, c, d] 0 (Key.fill 0).bytes
    (by rw [Key.length_eq]; simp)
  rw [List.take_zero, List.nil_append, Nat.zero_add, Key.drop_bytes_eq_nil _ (by rfl),
    List.append_nil, funext (keyBlock_stmtKey s)] at hloop
  exact Key.ext_bytes (hloop.trans (by rw [stmtKey_bytes, h]))

/-- Two statements have the same key in an index exactly when all their parts hash alike. -/
theorem stmtKey_inj_iff (idx : IndexType) {s t : Statement} :
    stmtKey idx s = stmtKey idx t ↔ ∀ pos, stmtHash s pos = stmtHash t pos := by
  have hmem (pos : Position) : pos ∈ idx.order := by cases idx <;> cases pos <;> decide
  have hlen : ∀ pos ∈ idx.order, (stmtHash s pos).bytes.length = (stmtHash t pos).bytes.length :=
    fun pos _ => by rw [Hash.length_eq, Hash.length_eq]
  rw [← Key.bytes_inj, stmtKey_bytes, stmtKey_bytes, flatMap_inj _ hlen]
  constructor
  · intro h pos
    exact Hash.bytes_inj.mp (h pos (hmem pos))
  · intro h pos _
    rw [h pos]

theorem stmtKey_eq_iff_spoc (idx : IndexType) {s t : Statement} :
    stmtKey idx s = stmtKey idx t ↔ stmtKey .SPOC s = stmtKey .SPOC t := by
  rw [stmtKey_inj_iff, stmtKey_inj_iff]

/-! ## Key ranges -/

omit [Platform] in
theorem isLE_compare_zero (a : UInt8) : (compare 0 a).isLE = true := by
  rw [Std.isLE_compare, UInt8.le_iff_toNat_le]
  simp

omit [Platform] in
theorem isLE_compare_max (a : UInt8) : (compare a 0xFF).isLE = true := by
  have := a.toNat_lt
  rw [Std.isLE_compare, UInt8.le_iff_toNat_le]
  simp
  omega

/-- The positions of an index up to the first one that the pattern leaves unset. -/
def IndexType.leading (idx : IndexType) (pattern : Statement) : List Position :=
  idx.order.takeWhile fun pos => (pattern.part? pos).isSome

/-- The bounds of a key range: the hashes of the leading fields, then the fill byte. -/
theorem compute_fill_bytes (pattern : Statement) (idx : IndexType) (b : UInt8) :
    (((patternQuery pattern).setType idx).compute (Key.fill b)).bytes =
      (idx.leading pattern).flatMap (fun pos => partBlock (pattern.part? pos)) ++
        List.replicate (4 * keyLength - (idx.leading pattern).length * keyLength) b := by
  have h := computeKeyLoop_map pattern.part? idx.order 0 (Key.fill b).bytes
    (by rw [Key.length_eq]; cases idx <;> simp [IndexType.order])
  have hcompute : (((patternQuery pattern).setType idx).compute (Key.fill b)).bytes =
      computeKeyLoop 0 (idx.order.map pattern.part?) (Key.fill b).bytes := by
    unfold PatternQuery.compute PatternQuery.setType
    cases idx <;> rfl
  rw [hcompute, h, List.take_zero, List.nil_append, Nat.zero_add]
  simp only [Key.fill, List.drop_replicate]
  rfl

theorem isSome_part?_of_mem_leading {pattern : Statement} {idx : IndexType} {pos : Position}
    (h : pos ∈ idx.leading pattern) : (pattern.part? pos).isSome = true :=
  List.mem_takeWhile_imp (p := fun pos => (pattern.part? pos).isSome) h

theorem length_leading_blocks (pattern : Statement) (idx : IndexType) :
    ((idx.leading pattern).flatMap fun pos => partBlock (pattern.part? pos)).length =
      (idx.leading pattern).length * keyLength :=
  length_flatMap_blocks _ fun _ h => length_partBlock (isSome_part?_of_mem_leading h)

theorem length_leading_le (pattern : Statement) (idx : IndexType) :
    (idx.leading pattern).length ≤ 4 := by
  have h4 : idx.order.length = 4 := by cases idx <;> rfl
  have hle : (idx.leading pattern).length ≤ idx.order.length := (List.takeWhile_prefix _).length_le
  rwa [h4] at hle

/-- A key lies in the key range of a pattern in an index exactly when it starts with the hashes of
the leading fields. -/
theorem key_mem_range_iff (pattern : Statement) (idx : IndexType) (key : Key) :
    ((keyCompare ((patternQuery pattern).setType idx).minKey key).isLE = true ∧
      (keyCompare key ((patternQuery pattern).setType idx).maxKey).isLE = true) ↔
      key.bytes.take ((idx.leading pattern).length * keyLength) =
        (idx.leading pattern).flatMap fun pos => partBlock (pattern.part? pos) := by
  have hword := length_leading_blocks pattern idx
  have hkey := key.length_eq
  have hle : (idx.leading pattern).length * keyLength ≤ 4 * keyLength :=
    Nat.mul_le_mul_right _ (length_leading_le pattern idx)
  rw [keyCompare_eq_compare, keyCompare_eq_compare, PatternQuery.minKey, PatternQuery.maxKey,
    compute_fill_bytes, compute_fill_bytes,
    isLE_range_iff_take isLE_compare_zero isLE_compare_max _ (by omega), hword]

/-- The key of a statement lies in the key range of a pattern exactly when the pattern selects the
statement. -/
theorem stmtKey_mem_range_iff (pattern s : Statement) :
    ((keyCompare (patternQuery pattern).minKey (stmtKey (indexType pattern) s)).isLE = true ∧
      (keyCompare (stmtKey (indexType pattern) s) (patternQuery pattern).maxKey).isLE = true) ↔
      Selects pattern s := by
  have hrange := key_mem_range_iff pattern (indexType pattern) (stmtKey (indexType pattern) s)
  have hsome : ∀ pos ∈ leading pattern, (pattern.part? pos).isSome = true := fun pos h =>
    isSome_part?_of_mem_leading h
  obtain ⟨rest, hrest⟩ : ∃ rest, (indexType pattern).order = leading pattern ++ rest :=
    ⟨_, List.takeWhile_append_dropWhile.symm⟩
  have hlen (pos : Position) : (stmtHash s pos).bytes.length = keyLength :=
    (stmtHash s pos).length_eq
  refine hrange.trans ?_
  show (stmtKey (indexType pattern) s).bytes.take ((leading pattern).length * keyLength) =
    (leading pattern).flatMap (fun pos => partBlock (pattern.part? pos)) ↔ _
  rw [stmtKey_bytes, hrest, take_flatMap_blocks _ _ fun pos _ => hlen pos,
    flatMap_inj _ fun pos h => by rw [hlen, length_partBlock (hsome pos h)]]
  refine forall₂_congr fun pos h => ?_
  obtain ⟨m, hm⟩ := Option.isSome_iff_exists.mp (hsome pos h)
  rw [hm, partBlock, Option.map_some, Option.getD_some, Option.map_some, Option.some.injEq,
    Hash.bytes_inj, eq_comm]

/-- If a pattern sets the first fields of an index and not the next one, these are the leading
ones. -/
theorem leading_of_fields {pattern : Statement} {idx : IndexType} {k : Nat} {fields : List Bytes}
    (hset : (idx.order.map pattern.part?).take k = fields.map some)
    (hnext : k < 4 → (idx.order.map pattern.part?)[k]? = some none) :
    idx.leading pattern = idx.order.take k := by
  have hpos : ∀ pos ∈ idx.order.take k, (pattern.part? pos).isSome = true := by
    intro pos hmem
    have hpart : pattern.part? pos ∈ fields.map some := by
      rw [← hset, ← List.map_take]
      exact List.mem_map_of_mem hmem
    obtain ⟨m, -, hm⟩ := List.mem_map.mp hpart
    rw [← hm]
    rfl
  have hdrop : (idx.order.drop k).takeWhile (fun pos => (pattern.part? pos).isSome) = [] := by
    cases hrest : idx.order.drop k with
    | nil => rfl
    | cons pos rest =>
      have hk : idx.order[k]? = some pos := by
        rw [← List.head?_drop, hrest]
        rfl
      have h4 : idx.order.length = 4 := by cases idx <;> rfl
      have hlt : k < 4 := by
        rw [← h4]
        exact (List.getElem?_eq_some_iff.mp hk).1
      have hnone := hnext hlt
      rw [List.getElem?_map, hk, Option.map_some, Option.some.injEq] at hnone
      exact List.takeWhile_cons_of_neg (by simp [hnone])
  calc idx.leading pattern
      = (idx.order.take k ++ idx.order.drop k).takeWhile fun pos => (pattern.part? pos).isSome := by
        rw [List.take_append_drop]
        rfl
    _ = idx.order.take k := by
        rw [List.takeWhile_append_of_pos hpos, hdrop, List.append_nil]

end CMarmotta
