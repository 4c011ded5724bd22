import CMarmotta.Lib.Wire

/-!
# `util/murmur3.cc`: `MurmurHash3_x64_128`

The 128-bit variant for 64-bit platforms, on a little-endian machine. `len` is the length of the
data; the source passes it as an `int`, which holds the size of every message protobuf can encode.
-/

namespace CMarmotta.Murmur3

/-- `rotl64`. -/
def rotl64 (x : UInt64) (r : UInt64) : UInt64 := (x <<< r) ||| (x >>> (64 - r))

/-- Bytes as a little-endian number. -/
def littleEndian : Bytes → UInt64
  | [] => 0
  | b :: bs => b.toUInt64 ||| (littleEndian bs <<< 8)

/-- `getblock64`: the `i`-th block of eight bytes. -/
def getblock64 (data : Bytes) (i : Nat) : UInt64 := littleEndian ((data.drop (8 * i)).take 8)

/-- `fmix64`. -/
def fmix64 (k : UInt64) : UInt64 :=
  let k := k ^^^ (k >>> 33)
  let k := k * 0xff51afd7ed558ccd
  let k := k ^^^ (k >>> 33)
  let k := k * 0xc4ceb9fe1a85ec53
  k ^^^ (k >>> 33)

/-- The constant `c1`. -/
def c1 : UInt64 := 0x87c37b91114253d5

/-- The constant `c2`. -/
def c2 : UInt64 := 0x4cf5ad432745937f

/-- `k1 *= c1; k1 = ROTL64(k1,31); k1 *= c2`. -/
def mixK1 (k1 : UInt64) : UInt64 := rotl64 (k1 * c1) 31 * c2

/-- `k2 *= c2; k2 = ROTL64(k2,33); k2 *= c1`. -/
def mixK2 (k2 : UInt64) : UInt64 := rotl64 (k2 * c2) 33 * c1

/-- One iteration of the loop over the blocks of sixteen bytes. -/
def bodyStep (data : Bytes) (h : UInt64 × UInt64) (i : Nat) : UInt64 × UInt64 :=
  let k1 := getblock64 data (i * 2 + 0)
  let k2 := getblock64 data (i * 2 + 1)
  let h1 := h.1 ^^^ mixK1 k1
  let h1 := (rotl64 h1 27 + h.2) * 5 + 0x52dce729
  let h2 := h.2 ^^^ mixK2 k2
  let h2 := (rotl64 h2 31 + h1) * 5 + 0x38495ab5
  (h1, h2)

/-- The `switch` over the last `len & 15` bytes: bytes 8 to 14 go to `k2`, bytes 0 to 7 to `k1`, and
a half is mixed in only when it has a byte. -/
def tailStep (tail : Bytes) (h : UInt64 × UInt64) : UInt64 × UInt64 :=
  let h2 := if 8 < tail.length then h.2 ^^^ mixK2 (littleEndian (tail.drop 8)) else h.2
  let h1 := if 0 < tail.length then h.1 ^^^ mixK1 (littleEndian (tail.take 8)) else h.1
  (h1, h2)

/-- The finalization. -/
def finalize (len : Nat) (h : UInt64 × UInt64) : UInt64 × UInt64 :=
  let h1 := h.1 ^^^ UInt64.ofNat len
  let h2 := h.2 ^^^ UInt64.ofNat len
  let h1 := h1 + h2
  let h2 := h2 + h1
  let h1 := fmix64 h1
  let h2 := fmix64 h2
  let h1 := h1 + h2
  let h2 := h2 + h1
  (h1, h2)

/-- The eight bytes of a word as the machine stores it. -/
def toBytes (x : UInt64) : Bytes :=
  [x.toUInt8, (x >>> 8).toUInt8, (x >>> 16).toUInt8, (x >>> 24).toUInt8, (x >>> 32).toUInt8,
    (x >>> 40).toUInt8, (x >>> 48).toUInt8, (x >>> 56).toUInt8]

/-- `MurmurHash3_x64_128`: the sixteen bytes written to `out`. -/
def murmurHash3X64128 (key : Bytes) (seed : UInt64) : Bytes :=
  let nblocks := key.length / 16
  let h := (List.range nblocks).foldl (bodyStep key) (seed, seed)
  let h := tailStep (key.drop (nblocks * 16)) h
  let h := finalize key.length h
  toBytes h.1 ++ toBytes h.2

/-- The hash has sixteen bytes. -/
theorem length_murmurHash3X64128 (key : Bytes) (seed : UInt64) :
    (murmurHash3X64128 key seed).length = 16 := rfl

end CMarmotta.Murmur3
