import CMarmotta.Model.Platform
import Mathlib.Data.Finset.Insert
import Mathlib.Data.Fintype.Defs

/-!
# Index keys and pattern queries

The part of `persistence/leveldb_persistence.cc` in front of the databases: the 64-byte keys made of
the hashes of the four parts of a statement, and `PatternQuery`, which picks an index for a pattern
and computes the bounds of its key range.
-/

namespace CMarmotta

/-! ## Buffers -/

/-- A `char` buffer of `4 * KEY_LENGTH` bytes. -/
structure Key where
  bytes : Bytes
  length_eq : bytes.length = 4 * keyLength
  deriving DecidableEq

/-- A buffer filled with one byte (`calloc` fills with zero). -/
def Key.fill (b : UInt8) : Key := ⟨List.replicate (4 * keyLength) b, List.length_replicate⟩

/-- Overwrite `dest` with `src` from `offset` on. -/
def memcpy (dest : Bytes) (offset : Nat) (src : Bytes) : Bytes :=
  dest.take offset ++ src ++ dest.drop (offset + src.length)

theorem length_memcpy {dest src : Bytes} {offset : Nat}
    (h : offset + src.length ≤ dest.length) : (memcpy dest offset src).length = dest.length := by
  simp [memcpy]; omega

/-- `memcmp`: the first `n` bytes compared as unsigned numbers. -/
def memcmp (a b : Bytes) (n : Nat) : Ordering := compare (a.take n) (b.take n)

/-- `Slice::compare`: the common length first, then the shorter slice is the smaller one. -/
def sliceCompare (a b : Bytes) : Ordering :=
  (memcmp a b (min a.length b.length)).then (compare a.length b.length)

/-- `KeyComparator::Compare`. -/
def keyCompare (a b : Key) : Ordering := memcmp a.bytes b.bytes (4 * keyLength)

/-! ## Keys -/

/-- `enum Position`. -/
inductive Position where
  | S | P | O | C
  deriving DecidableEq

instance : Fintype Position where
  elems := {.S, .P, .O, .C}
  complete pos := by cases pos <;> decide

/-- The number of a position. -/
def Position.toNat : Position → Nat
  | S => 0
  | P => 1
  | O => 2
  | C => 3

/-- The bytes of `src` at `src[m * KEY_LENGTH]`. -/
def keyBlock (src : Key) (m : Position) : Bytes :=
  (src.bytes.drop (m.toNat * keyLength)).take keyLength

theorem length_keyBlock (src : Key) (m : Position) : (keyBlock src m).length = keyLength := by
  have h := src.length_eq
  have hm : m.toNat < 4 := by cases m <;> decide
  simp [keyBlock, keyLength] at h ⊢
  omega

/-- The loop of `orderKey`. -/
def orderKeyLoop (offset : Nat) (src : Key) (ms : List Position) (dest : Bytes) : Bytes :=
  match ms with
  | [] => dest
  | m :: ms => orderKeyLoop (offset + keyLength) src ms (memcpy dest offset (keyBlock src m))

theorem length_orderKeyLoop (offset : Nat) (src : Key) (ms : List Position) (dest : Bytes)
    (h : offset + ms.length * keyLength ≤ dest.length) :
    (orderKeyLoop offset src ms dest).length = dest.length := by
  induction ms generalizing offset dest with
  | nil => rfl
  | cons m ms ih =>
    have hm := length_keyBlock src m
    rw [List.length_cons, Nat.succ_mul] at h
    have hcpy : (memcpy dest offset (keyBlock src m)).length = dest.length :=
      length_memcpy (by omega)
    rw [orderKeyLoop, ih _ _ (by omega), hcpy]

/-- `orderKey`: the blocks of `src` in the order given. -/
def orderKey (dest src : Key) (a b c d : Position) : Key where
  bytes := orderKeyLoop 0 src [a, b, c, d] dest.bytes
  length_eq := by
    have h := dest.length_eq
    rw [length_orderKeyLoop _ _ _ _ (by rw [h]; simp [keyLength]), h]

section Keys

variable [Platform]

open Platform

/-- The loop of `computeKey`: hash the parts one after the other into the buffer, and return at the
first one that is missing. -/
def computeKeyLoop (offset : Nat) (ms : List (Option Bytes)) (result : Bytes) : Bytes :=
  match ms with
  | [] => result
  | none :: _ => result
  | some m :: ms =>
    computeKeyLoop (offset + keyLength) ms (memcpy result offset (murmur3 m).bytes)

theorem length_computeKeyLoop (offset : Nat) (ms : List (Option Bytes)) (result : Bytes)
    (h : offset + ms.length * keyLength ≤ result.length) :
    (computeKeyLoop offset ms result).length = result.length := by
  induction ms generalizing offset result with
  | nil => rfl
  | cons m ms ih =>
    cases m with
    | none => rfl
    | some m =>
      have hm := (murmur3 m).length_eq
      rw [List.length_cons, Nat.succ_mul] at h
      have hcpy : (memcpy result offset (murmur3 m).bytes).length = result.length :=
        length_memcpy (by omega)
      rw [computeKeyLoop, ih _ _ (by omega), hcpy]

/-- `computeKey`. -/
def computeKey (a b c d : Option Bytes) (result : Key) : Key where
  bytes := computeKeyLoop 0 [a, b, c, d] result.bytes
  length_eq := by
    have h := result.length_eq
    rw [length_computeKeyLoop _ _ _ (by rw [h]; simp [keyLength]), h]

/-! ## Pattern queries -/

/-- `PatternQuery::IndexType`. -/
inductive IndexType where
  | SPOC | CSPO | OPSC | PCOS
  deriving DecidableEq

instance : Fintype IndexType where
  elems := {.SPOC, .CSPO, .OPSC, .PCOS}
  complete idx := by cases idx <;> decide

/-- `PatternQuery`: the serialized fields of a pattern and the index to use for it. -/
structure PatternQuery where
  s : Option Bytes
  p : Option Bytes
  o : Option Bytes
  c : Option Bytes
  type : IndexType

/-- The choice of the index in the constructor of `PatternQuery`. -/
def indexType (pattern : Statement) : IndexType :=
  if pattern.subject.isSome then
    -- The subject is usually most selective.
    if pattern.context.isSome then .CSPO else .SPOC
  else if pattern.object.isSome then .OPSC
  else if pattern.predicate.isSome then .PCOS
  else if pattern.context.isSome then .CSPO
  else .SPOC

/-- The constructor of `PatternQuery`. -/
def patternQuery (pattern : Statement) : PatternQuery where
  s := pattern.subject.map resourceCodec.serialize
  p := pattern.predicate.map uriCodec.serialize
  o := pattern.object.map valueCodec.serialize
  c := pattern.context.map resourceCodec.serialize
  type := indexType pattern

namespace PatternQuery

omit [Platform] in
/-- `PatternQuery::Type(IndexType)`: use another index. -/
def setType (q : PatternQuery) (t : IndexType) : PatternQuery := { q with type := t }

/-- `PatternQuery::compute`. -/
def compute (q : PatternQuery) (result : Key) : Key :=
  match q.type with
  | .SPOC => computeKey q.s q.p q.o q.c result
  | .CSPO => computeKey q.c q.s q.p q.o result
  | .OPSC => computeKey q.o q.p q.s q.c result
  | .PCOS => computeKey q.p q.c q.o q.s result

/-- `PatternQuery::MinKey`. -/
def minKey (q : PatternQuery) : Key := q.compute (Key.fill 0)

/-- `PatternQuery::MaxKey`. -/
def maxKey (q : PatternQuery) : Key := q.compute (Key.fill 0xFF)

end PatternQuery

end Keys

end CMarmotta
