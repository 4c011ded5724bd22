import CMarmotta.Lib.Mixing
import CMarmotta.Util.Murmur3
import Mathlib.Tactic.IntervalCases

/-!
# What `MurmurHash3_x64_128` tells apart

The hash reads its input in blocks of sixteen bytes, and every step of it can be undone. So two
inputs of the same length that differ only within one block, or only in the bytes behind the last
one, have different hashes.
-/

namespace CMarmotta.Murmur3

open Mixing

/-! ## Words -/

theorem mul_injective {c d : UInt64} (h : c * d = 1) : Function.Injective fun x : UInt64 => x * c := by
  intro x y hxy
  have hcd : c.toBitVec * d.toBitVec = 1#64 := by
    rw [← UInt64.toBitVec_mul, h]
    rfl
  refine UInt64.toBitVec_inj.mp (Mixing.mul_injective hcd ?_)
  have hbits := congrArg UInt64.toBitVec hxy
  simpa only [UInt64.toBitVec_mul] using hbits

theorem toBitVec_rotl64 (x : UInt64) {r : UInt64} (hpos : 0 < r.toNat) (hlt : r.toNat < 64) :
    (rotl64 x r).toBitVec = x.toBitVec.rotateLeft r.toNat := by
  have hleft : (r.toBitVec % 64).toNat = r.toNat := by
    rw [BitVec.toNat_umod]
    exact Nat.mod_eq_of_lt hlt
  have hright : ((64 - r).toBitVec % 64).toNat = 64 - r.toNat := by
    rw [BitVec.toNat_umod]
    have hsub : (64 - r).toBitVec.toNat = 64 - r.toNat :=
      UInt64.toNat_sub_of_le 64 r (UInt64.le_iff_toNat_le.mpr (Nat.le_of_lt hlt))
    rw [hsub]
    exact Nat.mod_eq_of_lt (by simp; omega)
  rw [rotl64, UInt64.toBitVec_or, UInt64.toBitVec_shiftLeft, UInt64.toBitVec_shiftRight,
    BitVec.rotateLeft_def, Nat.mod_eq_of_lt hlt, BitVec.shiftLeft_eq', BitVec.ushiftRight_eq', hleft,
    hright]

theorem rotl64_injective {r : UInt64} (hpos : 0 < r.toNat) (hlt : r.toNat < 64) :
    Function.Injective fun x => rotl64 x r := by
  intro x y hxy
  have hbits := congrArg UInt64.toBitVec hxy
  simp only [toBitVec_rotl64 _ hpos hlt] at hbits
  exact UInt64.toBitVec_inj.mp (rotateLeft_injective r.toNat hbits)

theorem xorShift_injective : Function.Injective fun x : UInt64 => x ^^^ (x >>> 33) := by
  intro x y hxy
  have hbits := congrArg UInt64.toBitVec hxy
  refine UInt64.toBitVec_inj.mp (Mixing.xorShift_injective (by omega : 64 ≤ 2 * 33) ?_)
  simpa using hbits

theorem fmix64_injective : Function.Injective fmix64 := by
  have hmul : Function.Injective fun x : UInt64 => x * 0xff51afd7ed558ccd :=
    mul_injective (d := 0x4f74430c22a54005) (by decide)
  have hmul' : Function.Injective fun x : UInt64 => x * 0xc4ceb9fe1a85ec53 :=
    mul_injective (d := 0x9cb4b2f8129337db) (by decide)
  exact xorShift_injective.comp (hmul'.comp (xorShift_injective.comp (hmul.comp xorShift_injective)))

theorem mul_c1_injective : Function.Injective fun x : UInt64 => x * c1 :=
  mul_injective (d := 0xa98409e882ce4d7d) (by decide)

theorem mul_c2_injective : Function.Injective fun x : UInt64 => x * c2 :=
  mul_injective (d := 0xa81e14edd9de2c7f) (by decide)

theorem mixK1_injective : Function.Injective mixK1 :=
  mul_c2_injective.comp ((rotl64_injective (by decide) (by decide)).comp mul_c1_injective)

theorem mixK2_injective : Function.Injective mixK2 :=
  mul_c1_injective.comp ((rotl64_injective (by decide) (by decide)).comp mul_c2_injective)

/-! ## The state -/

/-- One iteration of the loop, with the two halves of its block. -/
def absorb (h : UInt64 × UInt64) (k1 k2 : UInt64) : UInt64 × UInt64 :=
  let h1 := (rotl64 (h.1 ^^^ mixK1 k1) 27 + h.2) * 5 + 0x52dce729
  (h1, (rotl64 (h.2 ^^^ mixK2 k2) 31 + h1) * 5 + 0x38495ab5)

theorem bodyStep_eq_absorb (data : Bytes) (h : UInt64 × UInt64) (i : Nat) :
    bodyStep data h i =
      absorb h (getblock64 data (i * 2 + 0)) (getblock64 data (i * 2 + 1)) := rfl

/-- What a line has read can be told from its result and the other half of the state. -/
theorem line_injective {r : UInt64} (hpos : 0 < r.toNat) (hlt : r.toNat < 64) (a c : UInt64) :
    Function.Injective fun x => (rotl64 x r + a) * 5 + c := by
  have hmul : Function.Injective fun x : UInt64 => x * 5 :=
    mul_injective (d := 0xcccccccccccccccd) (by decide)
  intro x y hxy
  have hsum := hmul ((UInt64.add_left_inj c).mp hxy)
  exact rotl64_injective hpos hlt ((UInt64.add_left_inj a).mp hsum)

theorem absorb_eq {h h' : UInt64 × UInt64} {k1 k2 k1' k2' : UInt64}
    (heq : absorb h k1 k2 = absorb h' k1' k2') :
    h.2 ^^^ mixK2 k2 = h'.2 ^^^ mixK2 k2' ∧
      (h.2 = h'.2 → h.1 ^^^ mixK1 k1 = h'.1 ^^^ mixK1 k1') := by
  obtain ⟨h1, h2⟩ := h
  obtain ⟨h1', h2'⟩ := h'
  obtain ⟨hfirst, hsecond⟩ := Prod.mk.inj heq
  rw [hfirst] at hsecond
  refine ⟨line_injective (by decide) (by decide) _ _ hsecond, ?_⟩
  rintro rfl
  exact line_injective (by decide) (by decide) _ _ hfirst

theorem absorb_injective (k1 k2 : UInt64) : Function.Injective fun h => absorb h k1 k2 := by
  intro h h' heq
  obtain ⟨hsecond, hfirst⟩ := absorb_eq heq
  have h2 : h.2 = h'.2 := (UInt64.xor_left_inj _).mp hsecond
  exact Prod.ext ((UInt64.xor_left_inj _).mp (hfirst h2)) h2

/-- The block that an iteration has read can be told from the states before and after it. -/
theorem block_eq_of_absorb_eq {h : UInt64 × UInt64} {k1 k2 k1' k2' : UInt64}
    (heq : absorb h k1 k2 = absorb h k1' k2') : k1 = k1' ∧ k2 = k2' := by
  obtain ⟨hsecond, hfirst⟩ := absorb_eq heq
  exact ⟨mixK1_injective ((UInt64.xor_right_inj _).mp (hfirst rfl)),
    mixK2_injective ((UInt64.xor_right_inj _).mp hsecond)⟩

theorem finalize_injective (len : Nat) : Function.Injective (finalize len) := by
  intro h h' heq
  obtain ⟨hfirst, hsecond⟩ := Prod.mk.inj heq
  rw [hfirst] at hsecond
  have hmix2 := (UInt64.add_left_inj _).mp hsecond
  rw [hmix2] at hfirst
  have hmix1 := (UInt64.add_left_inj _).mp hfirst
  have h1 := fmix64_injective hmix1
  have h2 := fmix64_injective hmix2
  rw [h1] at h2
  have h2' := (UInt64.add_left_inj _).mp h2
  rw [h2'] at h1
  have h1' := (UInt64.add_left_inj _).mp h1
  exact Prod.ext ((UInt64.xor_left_inj _).mp h1') ((UInt64.xor_left_inj _).mp h2')

/-! ## Bytes -/

theorem littleEndian_cons {b : UInt8} {bs : Bytes} (h : (littleEndian bs).toNat < 2 ^ 56) :
    (littleEndian (b :: bs)).toNat = 2 ^ 8 * (littleEndian bs).toNat + b.toNat := by
  have hshift : (littleEndian bs <<< 8).toNat = 2 ^ 8 * (littleEndian bs).toNat := by
    rw [UInt64.toNat_shiftLeft, Nat.shiftLeft_eq, Nat.mul_comm]
    exact Nat.mod_eq_of_lt (by simp; omega)
  have hb : b.toNat < 2 ^ 8 := UInt8.toNat_lt b
  rw [littleEndian, UInt64.toNat_or, hshift, UInt8.toNat_toUInt64, Nat.or_comm,
    ← Nat.two_pow_add_eq_or_of_lt hb]

theorem littleEndian_lt {bs : Bytes} (h : bs.length ≤ 8) :
    (littleEndian bs).toNat < 2 ^ (8 * bs.length) := by
  induction bs with
  | nil => exact Nat.one_pos
  | cons b bs ih =>
    rw [List.length_cons] at h
    have hrest := ih (by omega)
    have hpow : 2 ^ (8 * bs.length) ≤ 2 ^ 56 := Nat.pow_le_pow_right (by omega) (by omega)
    have hb : b.toNat < 2 ^ 8 := UInt8.toNat_lt b
    rw [littleEndian_cons (by omega), List.length_cons, Nat.mul_succ, Nat.pow_add]
    omega

/-- At most eight bytes can be told from their number. -/
theorem littleEndian_injective {bs bs' : Bytes} (hlen : bs.length = bs'.length)
    (h8 : bs.length ≤ 8) (heq : littleEndian bs = littleEndian bs') : bs = bs' := by
  induction bs generalizing bs' with
  | nil => exact (List.length_eq_zero_iff.mp hlen.symm).symm
  | cons b bs ih =>
    cases bs' with
    | nil => cases hlen
    | cons b' bs' =>
      rw [List.length_cons] at h8
      rw [List.length_cons, List.length_cons, Nat.succ.injEq] at hlen
      have hlt : ∀ l : Bytes, l.length = bs.length → (littleEndian l).toNat < 2 ^ 56 := by
        intro l hl
        have hl' : (littleEndian l).toNat < 2 ^ (8 * l.length) := littleEndian_lt (by omega)
        have hpow : 2 ^ (8 * l.length) ≤ 2 ^ 56 := Nat.pow_le_pow_right (by omega) (by omega)
        omega
      have hnat := congrArg UInt64.toNat heq
      rw [littleEndian_cons (hlt bs rfl), littleEndian_cons (hlt bs' hlen.symm)] at hnat
      have hb := UInt8.toNat_lt b
      have hb' := UInt8.toNat_lt b'
      have hrest : (littleEndian bs).toNat = (littleEndian bs').toNat := by omega
      have hfirst : b.toNat = b'.toNat := by omega
      rw [UInt8.toNat_inj.mp hfirst, ih hlen (by omega) (UInt64.toNat_inj.mp hrest)]

theorem mod_pow_eq_of_digits_eq {a b : Nat} (m : Nat)
    (h : ∀ k < m, a / 256 ^ k % 256 = b / 256 ^ k % 256) : a % 256 ^ m = b % 256 ^ m := by
  induction m with
  | zero => rw [Nat.pow_zero, Nat.mod_one, Nat.mod_one]
  | succ m ih =>
    rw [Nat.mod_pow_succ, Nat.mod_pow_succ, ih fun k hk => h k (by omega), h m (by omega)]

theorem toBytes_injective : Function.Injective toBytes := by
  intro x y hxy
  have hdigits : ∀ k < 8, x.toNat / 256 ^ k % 256 = y.toNat / 256 ^ k % 256 := by
    simp only [toBytes, List.cons.injEq, ← UInt8.toNat_inj, UInt64.toNat_toUInt8,
      UInt64.toNat_shiftRight, Nat.shiftRight_eq_div_pow] at hxy
    obtain ⟨h0, h1, h2, h3, h4, h5, h6, h7, -⟩ := hxy
    intro k hk
    interval_cases k
    · simpa using h0
    · exact h1
    · exact h2
    · exact h3
    · exact h4
    · exact h5
    · exact h6
    · exact h7
  have hmod := mod_pow_eq_of_digits_eq 8 hdigits
  have hlt : ∀ z : UInt64, z.toNat < 256 ^ 8 := UInt64.toNat_lt
  rw [Nat.mod_eq_of_lt (hlt x), Nat.mod_eq_of_lt (hlt y)] at hmod
  exact UInt64.toNat_inj.mp hmod

/-! ## Inputs -/

theorem tailStep_injective (tail : Bytes) : Function.Injective (tailStep tail) := by
  intro h h' heq
  obtain ⟨hfirst, hsecond⟩ := Prod.mk.inj heq
  refine Prod.ext ?_ ?_
  · split at hfirst
    · exact (UInt64.xor_left_inj _).mp hfirst
    · exact hfirst
  · split at hsecond
    · exact (UInt64.xor_left_inj _).mp hsecond
    · exact hsecond

/-- The bytes behind the last block can be told from the states before and after them. -/
theorem tail_eq_of_tailStep_eq {tail tail' : Bytes} {h : UInt64 × UInt64}
    (hlen : tail.length = tail'.length) (h16 : tail.length < 16)
    (heq : tailStep tail h = tailStep tail' h) : tail = tail' := by
  obtain ⟨hfirst, hsecond⟩ := Prod.mk.inj heq
  rw [← hlen] at hfirst hsecond
  have htake : tail.take 8 = tail'.take 8 := by
    split at hfirst
    · have hmix := mixK1_injective ((UInt64.xor_right_inj _).mp hfirst)
      exact littleEndian_injective (by simp [hlen]) (by simp) hmix
    · rw [List.length_eq_zero_iff.mp (by omega : tail.length = 0),
        List.length_eq_zero_iff.mp (by omega : tail'.length = 0)]
  have hdrop : tail.drop 8 = tail'.drop 8 := by
    split at hsecond
    · have hmix := mixK2_injective ((UInt64.xor_right_inj _).mp hsecond)
      exact littleEndian_injective (by simp [hlen]) (by simp; omega) hmix
    · rw [List.drop_eq_nil_of_le (by omega), List.drop_eq_nil_of_le (by omega)]
  rw [← List.take_append_drop 8 tail, htake, hdrop, List.take_append_drop]

/-- Two inputs of the same length agree outside one block of sixteen bytes. -/
structure DifferInOneBlock (a b : Bytes) : Prop where
  length_eq : a.length = b.length
  agree : ∃ j, ∀ i, i / 16 ≠ j → a[i]? = b[i]?

theorem getblock64_eq {a b : Bytes} {j : Nat} (h : ∀ i, i / 16 ≠ j → a[i]? = b[i]?) {i k : Nat}
    (hi : i ≠ j) (hk : k < 2) : getblock64 a (i * 2 + k) = getblock64 b (i * 2 + k) := by
  rw [getblock64, getblock64]
  congr 1
  refine List.ext_getElem? fun t => ?_
  rw [List.getElem?_take, List.getElem?_take, List.getElem?_drop, List.getElem?_drop]
  split
  · exact h _ (by omega)
  · rfl

theorem getElem?_eq_of_getblock64_eq {a b : Bytes} (hlen : a.length = b.length) {k : Nat}
    (h : getblock64 a k = getblock64 b k) {i : Nat} (hi : i / 8 = k) : a[i]? = b[i]? := by
  have hblock : (a.drop (8 * k)).take 8 = (b.drop (8 * k)).take 8 :=
    littleEndian_injective (by simp [hlen]) (by simp) h
  have hget := congrArg (fun l : Bytes => l[i % 8]?) hblock
  simp only [List.getElem?_take, List.getElem?_drop, Nat.mod_lt i (by omega : 8 > 0), if_true] at hget
  rwa [← hi, Nat.div_add_mod] at hget

/-- The state behind the loop. -/
def body (data : Bytes) (nblocks : Nat) (seed : UInt64) : UInt64 × UInt64 :=
  (List.range nblocks).foldl (bodyStep data) (seed, seed)

theorem states_eq_of_hash_eq {a b : Bytes} (hlen : a.length = b.length) {seed : UInt64}
    (heq : murmurHash3X64128 a seed = murmurHash3X64128 b seed) :
    tailStep (a.drop (a.length / 16 * 16)) (body a (a.length / 16) seed) =
      tailStep (b.drop (a.length / 16 * 16)) (body b (a.length / 16) seed) := by
  simp only [murmurHash3X64128, ← hlen] at heq
  have hlength : ∀ x, (toBytes x).length = 8 := fun _ => rfl
  obtain ⟨hfirst, hsecond⟩ := List.append_inj heq (by rw [hlength, hlength])
  exact finalize_injective a.length
    (Prod.ext (toBytes_injective hfirst) (toBytes_injective hsecond))

/-- Inputs of the same length that differ only within one block of sixteen bytes, or only behind the
last one, have different hashes. -/
theorem murmurHash3X64128_injective {a b : Bytes} (h : DifferInOneBlock a b) {seed : UInt64}
    (heq : murmurHash3X64128 a seed = murmurHash3X64128 b seed) : a = b := by
  have hlen := h.length_eq
  obtain ⟨j, hagree⟩ := h.agree
  have hstates := states_eq_of_hash_eq hlen heq
  have hsteps : ∀ i, i ≠ j → ∀ s, bodyStep a s i = bodyStep b s i := by
    intro i hi s
    rw [bodyStep_eq_absorb, bodyStep_eq_absorb, getblock64_eq hagree hi (by omega),
      getblock64_eq hagree hi (by omega)]
  have hinj : ∀ i, Function.Injective fun s => bodyStep b s i := fun i => absorb_injective _ _
  refine List.ext_getElem? fun i => ?_
  by_cases hi : i / 16 = j
  swap
  · exact hagree i hi
  by_cases hj : j < a.length / 16
  · -- The inputs differ in a block of the loop.
    have htail : a.drop (a.length / 16 * 16) = b.drop (a.length / 16 * 16) := by
      refine List.ext_getElem? fun t => ?_
      rw [List.getElem?_drop, List.getElem?_drop]
      exact hagree _ (by omega)
    rw [htail] at hstates
    obtain ⟨t, hstep⟩ := step_eq_of_foldl_eq hinj List.nodup_range (List.mem_range.mpr hj) hsteps
      (tailStep_injective _ hstates)
    rw [bodyStep_eq_absorb, bodyStep_eq_absorb] at hstep
    obtain ⟨hk1, hk2⟩ := block_eq_of_absorb_eq hstep
    rcases (by omega : i / 8 = j * 2 + 0 ∨ i / 8 = j * 2 + 1) with hhalf | hhalf
    · exact getElem?_eq_of_getblock64_eq hlen hk1 hhalf
    · exact getElem?_eq_of_getblock64_eq hlen hk2 hhalf
  · -- They differ behind the last block.
    have hbody : body a (a.length / 16) seed = body b (a.length / 16) seed := by
      refine List.foldl_ext _ _ _ fun s i hi => hsteps i ?_ s
      rw [List.mem_range] at hi
      omega
    rw [hbody] at hstates
    have htail := tail_eq_of_tailStep_eq (by simp [hlen]) (by simp; omega) hstates
    have hget := congrArg (fun l : Bytes => l[i - a.length / 16 * 16]?) htail
    simp only [List.getElem?_drop] at hget
    rwa [Nat.add_sub_cancel' (by omega)] at hget

end CMarmotta.Murmur3
