import CreditChain.Types.ValidatorVerifier
import CreditChain.Lib.Bits
import Mathlib.Data.Finset.Card

/-!
# The buckets of a `BitVec`

`BitVec` of `crates/creditchain-bitvec` as the source stores it: at most `MAX_BUCKETS = 8192`
bytes, position `pos` being the bit `0b1000_0000 >> pos % 8` of byte `pos / 8`.  Each operation
is modelled on the bytes as the source computes it: `count_ones` adds up the bytes' counts,
`last_set_bit` finds the last non-zero byte and its trailing zeros, `&` keeps as many buckets as
the shorter operand has, and `|` pads the shorter one with zeros.

`bitAt` reads a position off the bytes, and every operation is described through it
(`isSet_eq`, `bitAt_set`, `countOnes_eq`, `lastSetBitIndex_eq_some_iff`, `bitAt_bitand`,
`bitAt_bitor`).  `toBitVec` reads the bytes into the bit-by-bit `BitVec` the validator verifier is
written over, with the same buckets and the same last set bit (`numBuckets_toBitVec`,
`lastSetBit_toBitVec`).  From these, `bitvec_positions_as_set`: the positions set from `default` or
`with_num_bits n` behave as a set of `u16`, and `check_num_of_voters` accepts exactly the bitmasks
with the right number of buckets whose positions lie below the validator count.
-/

namespace CreditChain

/-- `BitVec` as the source stores it: its buckets, at most `MAX_BUCKETS` of them. -/
structure BitVecBuckets where
  inner : List UInt8
  length_le : inner.length ≤ 8192
  deriving DecidableEq

namespace BitVecBuckets

/-- `BitVec::default()`. -/
def default : BitVecBuckets := ⟨[], by simp⟩

/-- `BitVec::with_num_bits`. -/
def withNumBits (numBits : UInt16) : BitVecBuckets :=
  ⟨List.replicate (BitVec.requiredBuckets numBits) 0, by
    simpa using BitVec.requiredBuckets_le numBits⟩

theorem inner_withNumBits (numBits : UInt16) :
    (withNumBits numBits).inner = List.replicate (BitVec.requiredBuckets numBits) 0 := rfl

/-- `0b1000_0000 >> bucket_pos`: the bit of a position within its bucket. -/
def mask (bucketPos : Nat) : UInt8 :=
  0b1000_0000 >>> bucketPos.toUInt8

/-- `BitVec::set`: the buckets grow to hold bucket `pos / 8`, whose bit is then or-ed in. -/
def set (bv : BitVecBuckets) (pos : UInt16) : BitVecBuckets :=
  let bucket := pos.toNat / 8
  let inner :=
    if bv.inner.length ≤ bucket then bv.inner ++ List.replicate (bucket + 1 - bv.inner.length) 0
    else bv.inner
  let bucketPos := pos.toNat - bucket * 8
  ⟨inner.modify bucket (· ||| mask bucketPos), by
    have := bv.length_le
    have := pos.toNat_lt
    simp only [List.length_modify, inner, bucket]
    split
    · simp only [List.length_append, List.length_replicate]
      omega
    · omega⟩

theorem inner_set (bv : BitVecBuckets) (pos : UInt16) :
    (bv.set pos).inner =
      (if bv.inner.length ≤ pos.toNat / 8 then
        bv.inner ++ List.replicate (pos.toNat / 8 + 1 - bv.inner.length) 0
      else bv.inner).modify (pos.toNat / 8) (· ||| mask (pos.toNat - pos.toNat / 8 * 8)) := rfl

/-- `BitVec::is_set`; a position past the buckets is clear. -/
def isSet (bv : BitVecBuckets) (pos : UInt16) : Bool :=
  let bucket := pos.toNat / 8
  if bv.inner.length ≤ bucket then false
  else
    let bucketPos := pos.toNat - bucket * 8
    (bv.inner.getD bucket 0 &&& mask bucketPos) != 0

/-- `BitVec::count_ones`: the counts of the buckets added up. -/
def countOnes (bv : BitVecBuckets) : Nat :=
  (bv.inner.map fun byte => Bits.countOnes 8 byte.toNat).sum

/-- The index `last_set_bit` computes before its cast to `u16`: from the last non-zero bucket,
counted from the end, and the trailing zeros of that bucket. -/
def lastSetBitIndex (bv : BitVecBuckets) : Option Nat :=
  (bv.inner.reverse.zipIdx.find? fun p => p.1 != 0).map fun p =>
    8 * (bv.inner.length - p.2) - Bits.trailingZeros 8 p.1.toNat - 1

/-- `BitVec::last_set_bit`. -/
def lastSetBit (bv : BitVecBuckets) : Option UInt16 :=
  bv.lastSetBitIndex.map Nat.toUInt16

theorem lastSetBit_eq (bv : BitVecBuckets) : bv.lastSetBit = bv.lastSetBitIndex.map Nat.toUInt16 :=
  rfl

/-- `BitVec::iter_ones`. -/
def iterOnes (bv : BitVecBuckets) : List Nat :=
  (List.range (bv.inner.length * 8)).filter fun idx => bv.isSet idx.toUInt16

/-- `BitVec::num_buckets`. -/
def numBuckets (bv : BitVecBuckets) : Nat :=
  bv.inner.length

theorem numBuckets_eq (bv : BitVecBuckets) : bv.numBuckets = bv.inner.length := rfl

/-- `BitAnd for &BitVec`: as many buckets as the shorter operand, each the `&` of the two. -/
def bitand (a b : BitVecBuckets) : BitVecBuckets :=
  ⟨List.zipWith (· &&& ·) a.inner b.inner, by
    have := a.length_le
    simp only [List.length_zipWith]
    omega⟩

/-- `BitOr for &BitVec`: as many buckets as the longer operand, a missing bucket read as `0`. -/
def bitor (a b : BitVecBuckets) : BitVecBuckets :=
  ⟨(List.range (max a.inner.length b.inner.length)).map fun i =>
      a.inner.getD i 0 ||| b.inner.getD i 0, by
    have := a.length_le
    have := b.length_le
    simp only [List.length_map, List.length_range]
    omega⟩

/-! ### Positions of the buckets -/

/-- Position `i` of the buckets: bit `7 - i % 8` of bucket `i / 8`, clear past the last bucket. -/
def bitAt (inner : List UInt8) (i : Nat) : Bool :=
  (inner.getD (i / 8) 0).toNat.testBit (7 - i % 8)

theorem bitAt_eq (inner : List UInt8) (i : Nat) :
    bitAt inner i = (inner.getD (i / 8) 0).toNat.testBit (7 - i % 8) := rfl

theorem toNat_mask {k : Nat} (hk : k < 8) : (mask k).toNat = 2 ^ (7 - k) := by
  have hk' : k.toUInt8.toNat = k := by
    simp only [Nat.toUInt8_eq, UInt8.toNat_ofNat']
    omega
  rw [mask, UInt8.toNat_shiftRight, hk', Nat.mod_eq_of_lt hk, Nat.shiftRight_eq_div_pow]
  exact Nat.pow_div (show k ≤ 7 by omega) (show 0 < 2 by decide)

/-- A bucket and a position's bit are non-zero exactly when the position is set in the bucket. -/
theorem and_mask_ne_zero (b : UInt8) {k : Nat} (hk : k < 8) :
    (b &&& mask k != 0) = b.toNat.testBit (7 - k) := by
  have h : (b &&& mask k).toNat = (b.toNat.testBit (7 - k)).toNat * 2 ^ (7 - k) := by
    rw [UInt8.toNat_and, toNat_mask hk, Nat.and_two_pow]
  rw [Bool.eq_iff_iff, bne_iff_ne, ne_eq, ← UInt8.toNat_inj, h, UInt8.toNat_zero]
  cases b.toNat.testBit (7 - k) <;> simp

theorem bitAt_of_length_le {inner : List UInt8} {i : Nat} (h : inner.length ≤ i / 8) :
    bitAt inner i = false := by
  rw [bitAt_eq, List.getD_eq_getElem?_getD, List.getElem?_eq_none h]
  simp

theorem isSet_eq (bv : BitVecBuckets) (pos : UInt16) : bv.isSet pos = bitAt bv.inner pos.toNat := by
  dsimp only [isSet]
  split
  · rename_i hle
    exact (bitAt_of_length_le hle).symm
  · have hpos : pos.toNat - pos.toNat / 8 * 8 = pos.toNat % 8 := by omega
    simp only [hpos, and_mask_ne_zero _ (Nat.mod_lt _ (by omega)), bitAt_eq]

/-- Growing the buckets with zeros changes no position. -/
theorem getD_resize (l : List UInt8) (bucket j : Nat) :
    (if l.length ≤ bucket then l ++ List.replicate (bucket + 1 - l.length) 0 else l).getD j 0 =
      l.getD j 0 := by
  split
  · simp only [List.getD_eq_getElem?_getD, List.getElem?_append, List.getElem?_replicate]
    split
    · rfl
    · rw [List.getElem?_eq_none (by omega)]
      split <;> rfl
  · rfl

theorem bitAt_set (bv : BitVecBuckets) (pos : UInt16) (i : Nat) :
    bitAt (bv.set pos).inner i = (decide (i = pos.toNat) || bitAt bv.inner i) := by
  have hpos : pos.toNat - pos.toNat / 8 * 8 = pos.toNat % 8 := by omega
  have hr := getD_resize bv.inner (pos.toNat / 8)
  have hlen : pos.toNat / 8 <
      (if bv.inner.length ≤ pos.toNat / 8 then
        bv.inner ++ List.replicate (pos.toNat / 8 + 1 - bv.inner.length) 0 else bv.inner).length := by
    split
    · simp only [List.length_append, List.length_replicate]
      omega
    · omega
  simp only [inner_set, bitAt_eq, hpos]
  generalize (if bv.inner.length ≤ pos.toNat / 8 then
        bv.inner ++ List.replicate (pos.toNat / 8 + 1 - bv.inner.length) 0 else bv.inner) = l at hr hlen ⊢
  rw [← hr (i / 8), List.getD_eq_getElem?_getD, List.getD_eq_getElem?_getD, List.getElem?_modify]
  by_cases hb : pos.toNat / 8 = i / 8
  · -- the position's own bucket: its bit is or-ed in
    have hiff : (7 - pos.toNat % 8 = 7 - i % 8) ↔ i = pos.toNat := by omega
    rw [← hb, List.getElem?_eq_getElem hlen]
    simp only [if_true, Option.map_eq_map, Option.map_some, Option.getD_some, UInt8.toNat_or,
      toNat_mask (Nat.mod_lt _ (show 8 > 0 by decide)), Nat.testBit_or, Nat.testBit_two_pow, hiff,
      Bool.or_comm]
  · -- another bucket is left as it was
    have hne : ¬ i = pos.toNat := fun h => hb (by rw [h])
    simp [hb, hne]

theorem bitAt_withNumBits (numBits : UInt16) (i : Nat) : bitAt (withNumBits numBits).inner i = false := by
  simp only [inner_withNumBits, bitAt_eq, List.getD_eq_getElem?_getD, List.getElem?_replicate]
  split <;> simp

/-- A run of `set` from any bitmask adds exactly the positions it sets. -/
theorem bitAt_foldl_set (ps : List UInt16) (bv : BitVecBuckets) (i : Nat) :
    bitAt (ps.foldl set bv).inner i = (decide (∃ p ∈ ps, p.toNat = i) || bitAt bv.inner i) := by
  induction ps generalizing bv with
  | nil => simp
  | cons p ps ih =>
    rw [List.foldl_cons, ih, bitAt_set]
    by_cases h : p.toNat = i
    · simp [h]
    · have h' : ¬ i = p.toNat := fun h'' => h h''.symm
      simp [h, h']

/-- A set position lies within the buckets. -/
theorem bitAt_lt {inner : List UInt8} {i : Nat} (h : bitAt inner i = true) : i < inner.length * 8 := by
  by_contra hlt
  rw [bitAt_of_length_le (by omega)] at h
  exact Bool.false_ne_true h

/-! ### Number of buckets -/

theorem numBuckets_set (bv : BitVecBuckets) (pos : UInt16) :
    (bv.set pos).numBuckets = max (pos.toNat / 8 + 1) bv.numBuckets := by
  simp only [numBuckets_eq, inner_set, List.length_modify]
  split
  · simp only [List.length_append, List.length_replicate]
    omega
  · omega

private theorem foldr_max_max (l : List Nat) (a m : Nat) :
    l.foldr max (max a m) = max a (l.foldr max m) := by
  induction l with
  | nil => rfl
  | cons x l ih =>
    rw [List.foldr_cons, List.foldr_cons, ih]
    exact Nat.max_left_comm x a _

/-- A run of `set` grows the buckets to hold the highest position it sets. -/
theorem numBuckets_foldl_set (ps : List UInt16) (bv : BitVecBuckets) :
    (ps.foldl set bv).numBuckets = (ps.map fun p => p.toNat / 8 + 1).foldr max bv.numBuckets := by
  induction ps generalizing bv with
  | nil => rfl
  | cons p ps ih =>
    rw [List.foldl_cons, ih, numBuckets_set, foldr_max_max, List.map_cons, List.foldr_cons]

theorem numBuckets_withNumBits (numBits : UInt16) :
    (withNumBits numBits).numBuckets = BitVec.requiredBuckets numBits := by
  simp [numBuckets_eq, inner_withNumBits]

/-- `required_buckets(n)` is `n / 8` rounded up. -/
theorem requiredBuckets_eq (numBits : UInt16) : BitVec.requiredBuckets numBits = (numBits.toNat + 7) / 8 := by
  unfold BitVec.requiredBuckets
  split <;> omega

/-! ### The set positions in order -/

theorem toNat_toUInt16_of_lt (bv : BitVecBuckets) {i : Nat} (h : i < bv.inner.length * 8) :
    i.toUInt16.toNat = i := by
  have := bv.length_le
  simp only [Nat.toUInt16_eq, UInt16.toNat_ofNat']
  omega

theorem iterOnes_eq (bv : BitVecBuckets) :
    bv.iterOnes = (List.range (bv.inner.length * 8)).filter (bitAt bv.inner) := by
  apply List.filter_congr
  intro idx hidx
  rw [isSet_eq, toNat_toUInt16_of_lt bv (List.mem_range.mp hidx)]

theorem mem_iterOnes {bv : BitVecBuckets} {i : Nat} : i ∈ bv.iterOnes ↔ bitAt bv.inner i = true := by
  rw [iterOnes_eq, List.mem_filter, List.mem_range]
  exact ⟨And.right, fun h => ⟨bitAt_lt h, h⟩⟩

theorem pairwise_iterOnes (bv : BitVecBuckets) : bv.iterOnes.Pairwise (· < ·) := by
  rw [iterOnes_eq]
  exact List.pairwise_lt_range.filter _

/-! ### The buckets read bit by bit -/

/-- The bits of a bucket, the most significant first. -/
def byteBits (b : UInt8) : List Bool :=
  ((List.range 8).map b.toNat.testBit).reverse

theorem byteBits_eq (b : UInt8) : byteBits b = ((List.range 8).map b.toNat.testBit).reverse := rfl

/-- The buckets read bit by bit. -/
def toBits (inner : List UInt8) : List Bool :=
  inner.flatMap byteBits

theorem toBits_eq (inner : List UInt8) : toBits inner = inner.flatMap byteBits := rfl

theorem length_byteBits (b : UInt8) : (byteBits b).length = 8 := by
  simp [byteBits_eq]

theorem length_toBits (inner : List UInt8) : (toBits inner).length = 8 * inner.length := by
  induction inner with
  | nil => rfl
  | cons b inner ih =>
    rw [toBits_eq, List.flatMap_cons, List.length_append, ← toBits_eq, ih, length_byteBits,
      List.length_cons]
    omega

theorem getD_byteBits (b : UInt8) {k : Nat} (hk : k < 8) :
    (byteBits b).getD k false = b.toNat.testBit (7 - k) := by
  rw [byteBits_eq, List.getD_eq_getElem?_getD, List.getElem?_reverse (by simpa using hk)]
  simp [List.getElem?_range (show 7 - k < 8 by omega)]

theorem getD_toBits (inner : List UInt8) (i : Nat) : (toBits inner).getD i false = bitAt inner i := by
  induction inner generalizing i with
  | nil => simp [toBits_eq, bitAt_eq]
  | cons b inner ih =>
    rw [toBits_eq, List.flatMap_cons, ← toBits_eq]
    by_cases hi : i < 8
    · -- a position of the first bucket
      rw [List.getD_append _ _ _ _ (by rw [length_byteBits]; exact hi), getD_byteBits b hi]
      simp [bitAt_eq, Nat.div_eq_of_lt hi, Nat.mod_eq_of_lt hi]
    · -- a position of a later bucket, eight positions further on
      rw [List.getD_append_right _ _ _ _ (by rw [length_byteBits]; omega), length_byteBits, ih]
      have hdiv : i / 8 = (i - 8) / 8 + 1 := by omega
      have hmod : i % 8 = (i - 8) % 8 := by omega
      rw [bitAt_eq, bitAt_eq, hdiv, hmod, List.getD_cons_succ]

/-! ### Counting the set positions -/

theorem countOnes_eq_count (bv : BitVecBuckets) : bv.countOnes = (toBits bv.inner).count true := by
  rw [countOnes, toBits_eq, List.count_flatMap]
  congr 1
  apply List.map_congr_left
  intro b _
  simp [byteBits_eq, Bits.countOnes_eq_count]

/-- The `true`s of a list of bits are as many as its set positions. -/
theorem count_true_eq_length_filter (l : List Bool) :
    l.count true = ((List.range l.length).filter (l.getD · false)).length := by
  induction l with
  | nil => rfl
  | cons a l ih =>
    rw [List.length_cons, List.range_succ_eq_map, List.filter_cons, List.filter_map, List.count_cons,
      ih]
    cases a <;> simp [Function.comp_def]

/-- `count_ones` counts the positions `iter_ones` lists. -/
theorem countOnes_eq_length_iterOnes (bv : BitVecBuckets) : bv.countOnes = bv.iterOnes.length := by
  rw [countOnes_eq_count, count_true_eq_length_filter, length_toBits, iterOnes_eq, Nat.mul_comm]
  simp only [getD_toBits]

/-! ### The last set position -/

/-- If bucket `m` is non-zero and every bucket after it is zero, the last set position is the
lowest set bit of bucket `m`. -/
theorem bitAt_last_bucket {inner : List UInt8} {m : Nat} (hm : inner.getD m 0 ≠ 0)
    (hafter : ∀ c, m < c → inner.getD c 0 = 0) :
    bitAt inner (8 * m + 7 - Bits.trailingZeros 8 (inner.getD m 0).toNat) = true ∧
      ∀ q, bitAt inner q = true → q ≤ 8 * m + 7 - Bits.trailingZeros 8 (inner.getD m 0).toNat := by
  have hne : (inner.getD m 0).toNat % 2 ^ 8 ≠ 0 := by
    have hlt := (inner.getD m 0).toNat_lt
    have hne0 : (inner.getD m 0).toNat ≠ 0 := fun h => hm (UInt8.toNat_inj.mp h)
    rw [Nat.mod_eq_of_lt hlt]
    exact hne0
  obtain ⟨htz, hbit, hlow⟩ := Bits.trailingZeros_spec hne
  constructor
  · have hdiv : (8 * m + 7 - Bits.trailingZeros 8 (inner.getD m 0).toNat) / 8 = m := by omega
    have hmod : 7 - (8 * m + 7 - Bits.trailingZeros 8 (inner.getD m 0).toNat) % 8 =
        Bits.trailingZeros 8 (inner.getD m 0).toNat := by omega
    rw [bitAt_eq, hdiv, hmod]
    exact hbit
  · intro q hq
    by_contra hgt
    rcases Nat.lt_or_ge m (q / 8) with hafter' | hle
    · -- a later bucket is zero
      rw [bitAt_eq, hafter _ hafter'] at hq
      simp at hq
    · -- within bucket `m`, a position after the lowest set bit is below it in the byte
      have hq8 : q / 8 = m := by omega
      rw [bitAt_eq, hq8, hlow _ (by omega)] at hq
      exact Bool.false_ne_true hq

theorem lastSetBitIndex_spec {bv : BitVecBuckets} {p : Nat} (h : bv.lastSetBitIndex = some p) :
    bitAt bv.inner p = true ∧ ∀ q, bitAt bv.inner q = true → q ≤ p := by
  obtain ⟨⟨b, j⟩, hfind, rfl⟩ := Option.map_eq_some_iff.mp h
  obtain ⟨hb, i, hi, hget, hzero⟩ := List.find?_eq_some_iff_getElem.mp hfind
  simp only [List.getElem_zipIdx, List.length_zipIdx, List.length_reverse, Prod.mk.injEq,
    Nat.zero_add] at hget hi hzero
  obtain ⟨rfl, rfl⟩ := hget
  have hir : i < bv.inner.reverse.length := by simpa using hi
  -- bucket `m` is the last non-zero one: the `i`-th from the end
  have hm : bv.inner.getD (bv.inner.length - 1 - i) 0 = bv.inner.reverse[i] := by
    rw [List.getElem_reverse, List.getD_eq_getElem _ _ (by omega)]
  have hafter : ∀ c, bv.inner.length - 1 - i < c → bv.inner.getD c 0 = 0 := by
    intro c hc
    by_cases hlen : c < bv.inner.length
    · have := hzero (bv.inner.length - 1 - c) (by omega)
      rw [List.getElem_reverse] at this
      rw [List.getD_eq_getElem _ _ hlen]
      simpa [show bv.inner.length - 1 - (bv.inner.length - 1 - c) = c by omega] using this
    · rw [List.getD_eq_getElem?_getD, List.getElem?_eq_none (by omega)]
      rfl
  have hbne : bv.inner.reverse[i] ≠ 0 := by simpa using hb
  have hlast := bitAt_last_bucket (hm ▸ hbne) hafter
  rw [hm] at hlast
  have htz := (Bits.trailingZeros_spec (w := 8) (v := bv.inner.reverse[i].toNat)
    (by rw [Nat.mod_eq_of_lt (UInt8.toNat_lt _)]; exact fun h => hbne (UInt8.toNat_inj.mp h))).1
  have hp : 8 * (bv.inner.length - i) - Bits.trailingZeros 8 bv.inner.reverse[i].toNat - 1 =
      8 * (bv.inner.length - 1 - i) + 7 - Bits.trailingZeros 8 bv.inner.reverse[i].toNat := by
    omega
  rw [hp]
  exact hlast

theorem bitAt_of_lastSetBitIndex_eq_none {bv : BitVecBuckets} (h : bv.lastSetBitIndex = none)
    (q : Nat) : bitAt bv.inner q = false := by
  have hall := List.find?_eq_none.mp (Option.map_eq_none_iff.mp h)
  by_cases hlen : q / 8 < bv.inner.length
  · have hi : bv.inner.length - 1 - q / 8 < bv.inner.reverse.zipIdx.length := by
      simp only [List.length_zipIdx, List.length_reverse]
      omega
    have hmem := hall _ (List.getElem_mem hi)
    simp only [List.getElem_zipIdx, List.getElem_reverse, bne_iff_ne, ne_eq, Decidable.not_not,
      show bv.inner.length - 1 - (bv.inner.length - 1 - q / 8) = q / 8 by omega] at hmem
    rw [bitAt_eq, List.getD_eq_getElem _ _ hlen, hmem, UInt8.toNat_zero, Nat.zero_testBit]
  · exact bitAt_of_length_le (by omega)

/-- `last_set_bit` finds the greatest set position. -/
theorem lastSetBitIndex_eq_some_iff (bv : BitVecBuckets) (p : Nat) :
    bv.lastSetBitIndex = some p ↔ bitAt bv.inner p = true ∧ ∀ q, bitAt bv.inner q = true → q ≤ p := by
  constructor
  · exact lastSetBitIndex_spec
  · rintro ⟨hp, hmax⟩
    cases h : bv.lastSetBitIndex with
    | none =>
      rw [bitAt_of_lastSetBitIndex_eq_none h] at hp
      exact absurd hp Bool.false_ne_true
    | some p' =>
      obtain ⟨hp', hmax'⟩ := lastSetBitIndex_spec h
      rw [Nat.le_antisymm (hmax' p hp) (hmax p' hp')]

theorem lastSetBitIndex_eq_none_iff (bv : BitVecBuckets) :
    bv.lastSetBitIndex = none ↔ ∀ q, bitAt bv.inner q = false := by
  constructor
  · exact bitAt_of_lastSetBitIndex_eq_none
  · intro hnone
    cases h : bv.lastSetBitIndex with
    | none => rfl
    | some p =>
      have := (lastSetBitIndex_spec h).1
      rw [hnone p] at this
      exact absurd this Bool.false_ne_true

/-- The index `last_set_bit` casts is below `2^16`, with 8192 buckets too: the cast loses
nothing. -/
theorem lastSetBitIndex_lt (bv : BitVecBuckets) {p : Nat} (h : bv.lastSetBitIndex = some p) :
    p < 2 ^ 16 := by
  have := bitAt_lt (lastSetBitIndex_spec h).1
  have := bv.length_le
  omega

theorem map_toNat_lastSetBit (bv : BitVecBuckets) :
    bv.lastSetBit.map UInt16.toNat = bv.lastSetBitIndex := by
  cases h : bv.lastSetBitIndex with
  | none => simp [lastSetBit_eq, h]
  | some p =>
    have := lastSetBitIndex_lt bv h
    simp only [lastSetBit_eq, h, Option.map_some, Nat.toUInt16_eq, UInt16.toNat_ofNat']
    rw [Nat.mod_eq_of_lt this]

/-- `last_set_bit` as a `u16`: the greatest set position. -/
theorem lastSetBit_eq_some_iff (bv : BitVecBuckets) (p : UInt16) :
    bv.lastSetBit = some p ↔
      bitAt bv.inner p.toNat = true ∧ ∀ q : UInt16, bitAt bv.inner q.toNat = true → q ≤ p := by
  have hsome : bv.lastSetBit = some p ↔ bv.lastSetBitIndex = some p.toNat := by
    rw [← map_toNat_lastSetBit]
    constructor
    · intro h
      rw [h, Option.map_some]
    · intro h
      obtain ⟨p', hp', hp'p⟩ := Option.map_eq_some_iff.mp h
      rw [hp', UInt16.toNat_inj.mp hp'p]
  rw [hsome, lastSetBitIndex_eq_some_iff]
  constructor
  · rintro ⟨hp, hmax⟩
    exact ⟨hp, fun q hq => UInt16.le_iff_toNat_le.mpr (hmax _ hq)⟩
  · rintro ⟨hp, hmax⟩
    refine ⟨hp, fun q hq => ?_⟩
    -- a set position is below `8 * 8192`, so it is some `u16`
    have hq16 : q.toUInt16.toNat = q := toNat_toUInt16_of_lt bv (bitAt_lt hq)
    have := UInt16.le_iff_toNat_le.mp (hmax q.toUInt16 (by rw [hq16]; exact hq))
    rwa [hq16] at this

theorem lastSetBit_eq_none_iff (bv : BitVecBuckets) :
    bv.lastSetBit = none ↔ ∀ q, bitAt bv.inner q = false := by
  rw [lastSetBit_eq, Option.map_eq_none_iff, lastSetBitIndex_eq_none_iff]

/-! ### Intersection and union -/

/-- `&` is the intersection of the set positions: past the shorter operand both sides are
clear. -/
theorem bitAt_bitand (a b : BitVecBuckets) (i : Nat) :
    bitAt (a.bitand b).inner i = (bitAt a.inner i && bitAt b.inner i) := by
  simp only [bitand, bitAt_eq, List.getD_eq_getElem?_getD, List.getElem?_zipWith]
  cases a.inner[i / 8]? <;> cases b.inner[i / 8]? <;> simp [Nat.testBit_and]

/-- `|` is the union of the set positions: a missing bucket reads as zero on both sides. -/
theorem bitAt_bitor (a b : BitVecBuckets) (i : Nat) :
    bitAt (a.bitor b).inner i = (bitAt a.inner i || bitAt b.inner i) := by
  by_cases hi : i / 8 < max a.inner.length b.inner.length
  · simp only [bitor, bitAt_eq, List.getD_eq_getElem?_getD, List.getElem?_map,
      List.getElem?_range hi, Option.map_some, Option.getD_some, UInt8.toNat_or, Nat.testBit_or]
  · rw [bitAt_of_length_le (by simp only [bitor, List.length_map, List.length_range]; omega),
      bitAt_of_length_le (by omega), bitAt_of_length_le (by omega)]
    rfl

/-! ### The bit-by-bit view -/

/-- The bitmask read bit by bit, as the validator verifier is written over it. -/
def toBitVec (bv : BitVecBuckets) : BitVec :=
  ⟨toBits bv.inner, by rw [length_toBits]; omega, by
    have := bv.length_le
    rw [length_toBits]
    omega⟩

theorem toBitVec_bits (bv : BitVecBuckets) : bv.toBitVec.bits = toBits bv.inner := rfl

attribute [ext] BitVec

/-- Two lists of bits with the same length and the same bits are equal. -/
theorem eq_of_getD_eq {l₁ l₂ : List Bool} (hlen : l₁.length = l₂.length)
    (h : ∀ i, l₁.getD i false = l₂.getD i false) : l₁ = l₂ := by
  apply List.ext_getElem hlen
  intro i h₁ h₂
  have hi := h i
  rwa [List.getD_eq_getElem _ _ h₁, List.getD_eq_getElem _ _ h₂] at hi

theorem toBitVec_withNumBits (numBits : UInt16) :
    (withNumBits numBits).toBitVec = BitVec.withNumBits numBits := by
  ext1
  apply eq_of_getD_eq
  · simp [toBitVec_bits, BitVec.withNumBits, inner_withNumBits, length_toBits]
  · intro i
    rw [toBitVec_bits, getD_toBits, bitAt_withNumBits, BitVec.getD_withNumBits]

/-- `set` on the buckets is `set` on the bits. -/
theorem toBitVec_set (bv : BitVecBuckets) (pos : UInt16) :
    (bv.set pos).toBitVec = bv.toBitVec.set pos := by
  ext1
  apply eq_of_getD_eq
  · have hlen := numBuckets_set bv pos
    simp only [numBuckets_eq] at hlen
    simp only [toBitVec_bits, BitVec.set, List.length_set, List.length_append, List.length_replicate,
      length_toBits, hlen]
    omega
  · intro i
    simp only [toBitVec_bits, getD_toBits, bitAt_set, BitVec.getD_set]

/-- The buckets refine the bits along every run of `set`. -/
theorem toBitVec_foldl_set (ps : List UInt16) (bv : BitVecBuckets) :
    (ps.foldl set bv).toBitVec = ps.foldl BitVec.set bv.toBitVec := by
  induction ps generalizing bv with
  | nil => rfl
  | cons p ps ih => rw [List.foldl_cons, List.foldl_cons, ih, toBitVec_set]

theorem isSet_toBitVec (bv : BitVecBuckets) (pos : UInt16) : bv.toBitVec.isSet pos = bv.isSet pos := by
  rw [BitVec.isSet, isSet_eq]
  exact getD_toBits _ _

theorem numBuckets_toBitVec (bv : BitVecBuckets) : bv.toBitVec.numBuckets = bv.numBuckets := by
  simp [BitVec.numBuckets, toBitVec_bits, length_toBits, numBuckets_eq]

theorem iterOnes_toBitVec (bv : BitVecBuckets) : bv.toBitVec.iterOnes = bv.iterOnes := by
  simp only [BitVec.iterOnes, iterOnes, isSet_toBitVec]
  rw [toBitVec_bits, length_toBits, Nat.mul_comm]

/-- Scanning the positions from the last finds the greatest one that holds. -/
theorem find?_reverse_range_eq_some_iff (P : Nat → Bool) (n p : Nat) :
    (List.range n).reverse.find? P = some p ↔ p < n ∧ P p = true ∧ ∀ q < n, P q = true → q ≤ p := by
  induction n with
  | zero => simp
  | succ n ih =>
    rw [List.range_succ, List.reverse_append, List.reverse_singleton, List.singleton_append,
      List.find?_cons]
    cases hn : P n with
    | true =>
      -- the last position holds: it is the greatest
      simp only [Option.some.injEq]
      constructor
      · rintro rfl
        exact ⟨by omega, hn, fun q hq _ => by omega⟩
      · rintro ⟨hp, hPp, hmax⟩
        exact Nat.le_antisymm (hmax n (by omega) hn) (by omega)
    | false =>
      rw [ih]
      constructor
      · rintro ⟨hp, hPp, hmax⟩
        refine ⟨by omega, hPp, fun q hq hPq => ?_⟩
        rcases Nat.lt_or_ge q n with hlt | hge
        · exact hmax q hlt hPq
        · rw [show q = n by omega, hn] at hPq
          exact absurd hPq Bool.false_ne_true
      · rintro ⟨hp, hPp, hmax⟩
        have hpn : p ≠ n := fun h => by rw [h, hn] at hPp; exact Bool.false_ne_true hPp
        exact ⟨by omega, hPp, fun q hq hPq => hmax q (by omega) hPq⟩

/-- `last_set_bit` on the buckets is `last_set_bit` on the bits. -/
theorem lastSetBit_toBitVec (bv : BitVecBuckets) : bv.toBitVec.lastSetBit = bv.lastSetBitIndex := by
  apply Option.ext
  intro p
  rw [BitVec.lastSetBit, find?_reverse_range_eq_some_iff, lastSetBitIndex_eq_some_iff]
  simp only [toBitVec_bits, getD_toBits, length_toBits]
  constructor
  · rintro ⟨_, hp, hmax⟩
    exact ⟨hp, fun q hq => hmax q (by have := bitAt_lt hq; omega) hq⟩
  · rintro ⟨hp, hmax⟩
    exact ⟨by have := bitAt_lt hp; omega, hp, fun q _ hq => hmax q hq⟩

/-- Every set position is a `u16`: a statement over the set `u16` positions is one over all
set positions. -/
theorem forall_isSet_iff (bv : BitVecBuckets) (P : Nat → Prop) :
    (∀ q : UInt16, bv.isSet q = true → P q.toNat) ↔ ∀ i, bitAt bv.inner i = true → P i := by
  constructor
  · intro h i hi
    have hi16 : i.toUInt16.toNat = i := toNat_toUInt16_of_lt bv (bitAt_lt hi)
    have := h i.toUInt16 (by rw [isSet_eq, hi16]; exact hi)
    rwa [hi16] at this
  · intro h q hq
    rw [isSet_eq] at hq
    exact h _ hq

/-- `check_num_of_voters` accepts a bitmask exactly when it has `n / 8` buckets rounded up and
no position at or above `n` is set. -/
theorem checkNumOfVoters_toBitVec_eq_ok (numValidators : UInt16) (bv : BitVecBuckets) :
    ValidatorVerifier.checkNumOfVoters numValidators bv.toBitVec = .ok () ↔
      bv.numBuckets = (numValidators.toNat + 7) / 8 ∧
        ∀ q : UInt16, bv.isSet q = true → q.toNat < numValidators.toNat := by
  rw [forall_isSet_iff bv (· < numValidators.toNat), ValidatorVerifier.checkNumOfVoters,
    numBuckets_toBitVec, lastSetBit_toBitVec, requiredBuckets_eq]
  by_cases hbuckets : bv.numBuckets = (numValidators.toNat + 7) / 8
  · rw [if_neg (not_not_intro hbuckets)]
    cases hlast : bv.lastSetBitIndex with
    | none =>
      have hclear := (lastSetBitIndex_eq_none_iff bv).mp hlast
      simp only [true_iff]
      exact ⟨hbuckets, fun q hq => by rw [hclear q] at hq; exact absurd hq Bool.false_ne_true⟩
    | some last =>
      obtain ⟨hset, hmax⟩ := (lastSetBitIndex_eq_some_iff bv last).mp hlast
      by_cases hge : last ≥ numValidators.toNat
      · simp only [if_pos hge, reduceCtorEq, false_iff, not_and, not_forall]
        exact fun _ => ⟨last, hset, by omega⟩
      · simp only [if_neg hge, true_iff]
        exact ⟨hbuckets, fun q hq => by have := hmax q hq; omega⟩
  · rw [if_pos hbuckets]
    simp only [reduceCtorEq, false_iff, not_and]
    exact fun h => absurd h hbuckets

/-! ### A bitmask as a set of positions -/

/-- From `with_num_bits n`, a run of `set` sets exactly the positions it names. -/
theorem bitAt_run (numBits : UInt16) (ps : List UInt16) (i : Nat) :
    bitAt (ps.foldl set (withNumBits numBits)).inner i = decide (∃ p ∈ ps, p.toNat = i) := by
  rw [bitAt_foldl_set, bitAt_withNumBits, Bool.or_false]

theorem bitvec_positions_as_set :
    default = withNumBits 0 ∧
      (∀ (numBits : UInt16) (ps : List UInt16),
        (∀ q, (ps.foldl set (withNumBits numBits)).isSet q = true ↔ q ∈ ps) ∧
        (ps.foldl set (withNumBits numBits)).countOnes = ps.toFinset.card ∧
        (∀ p, (ps.foldl set (withNumBits numBits)).lastSetBit = some p ↔
          p ∈ ps ∧ ∀ q ∈ ps, q ≤ p) ∧
        ((ps.foldl set (withNumBits numBits)).lastSetBit = none ↔ ps = []) ∧
        (ps.foldl set (withNumBits numBits)).iterOnes.Pairwise (· < ·) ∧
        (∀ i, i ∈ (ps.foldl set (withNumBits numBits)).iterOnes ↔ ∃ p ∈ ps, p.toNat = i) ∧
        (ps.foldl set (withNumBits numBits)).numBuckets =
          (ps.map fun p => p.toNat / 8 + 1).foldr max ((numBits.toNat + 7) / 8)) ∧
      (∀ bv : BitVecBuckets, bv.lastSetBit.map UInt16.toNat = bv.lastSetBitIndex) ∧
      (∀ (a b : BitVecBuckets) (q : UInt16),
        (a.bitand b).isSet q = (a.isSet q && b.isSet q) ∧
          (a.bitor b).isSet q = (a.isSet q || b.isSet q)) ∧
      (∀ (numValidators : UInt16) (bv : BitVecBuckets),
        ValidatorVerifier.checkNumOfVoters numValidators bv.toBitVec = .ok () ↔
          bv.numBuckets = (numValidators.toNat + 7) / 8 ∧
            ∀ q : UInt16, bv.isSet q = true → q.toNat < numValidators.toNat) := by
  refine ⟨rfl, fun numBits ps => ?_, map_toNat_lastSetBit, fun a b q => ?_,
    checkNumOfVoters_toBitVec_eq_ok⟩
  · -- the positions set along the run are those of `ps`
    have hset : ∀ q : UInt16, (∃ p ∈ ps, p.toNat = q.toNat) ↔ q ∈ ps := fun q => by
      simp [UInt16.toNat_inj]
    have hmem : ∀ i, i ∈ (ps.foldl set (withNumBits numBits)).iterOnes ↔ ∃ p ∈ ps, p.toNat = i :=
      fun i => by rw [mem_iterOnes, bitAt_run, decide_eq_true_iff]
    have hfinset : (ps.foldl set (withNumBits numBits)).iterOnes.toFinset =
        ps.toFinset.image UInt16.toNat := by
      ext i
      simp only [List.mem_toFinset, hmem, Finset.mem_image]
    refine ⟨fun q => ?_, ?_, fun p => ?_, ?_, pairwise_iterOnes _, hmem, ?_⟩
    · rw [isSet_eq, bitAt_run, decide_eq_true_iff, hset]
    · rw [countOnes_eq_length_iterOnes,
        ← List.toFinset_card_of_nodup (pairwise_iterOnes _).nodup, hfinset,
        Finset.card_image_of_injective _ (fun _ _ h => UInt16.toNat_inj.mp h)]
    · simp only [lastSetBit_eq_some_iff, bitAt_run, decide_eq_true_iff, hset]
    · rw [lastSetBit_eq_none_iff]
      simp only [bitAt_run, decide_eq_false_iff_not, not_exists, not_and]
      constructor
      · intro hnone
        exact List.eq_nil_iff_forall_not_mem.mpr fun p hp => hnone p.toNat p hp rfl
      · rintro rfl
        simp
    · rw [numBuckets_foldl_set, numBuckets_withNumBits, requiredBuckets_eq]
  · simp only [isSet_eq, bitAt_bitand, bitAt_bitor, and_self]

end BitVecBuckets

end CreditChain
