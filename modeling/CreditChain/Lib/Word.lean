import CreditChain.Lib.Bits

/-!
# 64-bit words under overflow checks

The `u64` operations of a program built with overflow checks: `+` and `-` panic when the result
leaves the word, and a shift panics when it moves by the width or more (bits shifted out of the
word are lost without a panic).  A panic is `none`.  `trailing_zeros` and `count_ones` read the
word's 64 bits.

The lemmas push `testBit` through each operation (`testBit_toNat_not`, `testBit_toNat_shiftLeft`,
…), so that an equation between bit tricks is proved bit by bit (`ext_testBit`).
-/

namespace Word

/-- `a + b` on `u64`. -/
def checkedAdd (a b : UInt64) : Option UInt64 :=
  if a.toNat + b.toNat < 2 ^ 64 then some (a + b) else none

/-- `a - b` on `u64`. -/
def checkedSub (a b : UInt64) : Option UInt64 :=
  if b ≤ a then some (a - b) else none

/-- `a << n` on `u64`. -/
def checkedShl (a : UInt64) (n : Nat) : Option UInt64 :=
  if n < 64 then some (a <<< n.toUInt64) else none

/-- `a >> n` on `u64`. -/
def checkedShr (a : UInt64) (n : Nat) : Option UInt64 :=
  if n < 64 then some (a >>> n.toUInt64) else none

/-- `u64::trailing_zeros`. -/
def trailingZeros (v : UInt64) : Nat := Bits.trailingZeros 64 v.toNat

/-- `u64::leading_zeros`. -/
def leadingZeros (v : UInt64) : Nat := Bits.leadingZeros 64 v.toNat

/-- `u64::count_ones`. -/
def countOnes (v : UInt64) : Nat := Bits.countOnes 64 v.toNat

/-! ### Checked arithmetic -/

theorem checkedAdd_of_lt {a b : UInt64} (h : a.toNat + b.toNat < 2 ^ 64) :
    checkedAdd a b = some (a + b) := if_pos h

theorem checkedSub_of_le {a b : UInt64} (h : b.toNat ≤ a.toNat) :
    checkedSub a b = some (a - b) := if_pos h

theorem checkedSub_of_lt {a b : UInt64} (h : a.toNat < b.toNat) : checkedSub a b = none :=
  if_neg (Nat.not_le.mpr h)

theorem checkedShl_of_lt (a : UInt64) {n : Nat} (h : n < 64) :
    checkedShl a n = some (a <<< n.toUInt64) := if_pos h

theorem checkedShr_of_lt (a : UInt64) {n : Nat} (h : n < 64) :
    checkedShr a n = some (a >>> n.toUInt64) := if_pos h

theorem checkedShr_of_le (a : UInt64) {n : Nat} (h : 64 ≤ n) : checkedShr a n = none :=
  if_neg (Nat.not_lt.mpr h)

theorem toNat_add_of_lt {a b : UInt64} (h : a.toNat + b.toNat < 2 ^ 64) :
    (a + b).toNat = a.toNat + b.toNat := by
  rw [UInt64.toNat_add, Nat.mod_eq_of_lt h]

/-! ### Bits -/

theorem toNat_toUInt64 {n : Nat} (h : n < 64) : n.toUInt64.toNat % 64 = n := by
  simp [Nat.toUInt64, h]

/-- Two words are equal when their 64 bits are. -/
theorem ext_testBit {a b : UInt64} (h : ∀ i < 64, a.toNat.testBit i = b.toNat.testBit i) :
    a = b := by
  apply UInt64.toNat_inj.mp
  apply Nat.eq_of_testBit_eq
  intro i
  by_cases hi : i < 64
  · exact h i hi
  · rw [Bits.testBit_eq_false_of_lt_two_pow a.toNat_lt (by omega),
      Bits.testBit_eq_false_of_lt_two_pow b.toNat_lt (by omega)]

theorem eq_zero_iff_testBit {a : UInt64} : a = 0 ↔ ∀ i < 64, a.toNat.testBit i = false :=
  ⟨fun h i _ => by simp [h], fun h => ext_testBit fun i hi => by simp [h i hi]⟩

@[simp] theorem testBit_toNat_ofNat {n i : Nat} (hi : i < 64) :
    (UInt64.ofNat n).toNat.testBit i = n.testBit i := by
  rw [UInt64.toNat_ofNat', Nat.testBit_mod_two_pow]
  simp [hi]

@[simp] theorem testBit_toNat_not (a : UInt64) (i : Nat) :
    (~~~a).toNat.testBit i = (decide (i < 64) && !a.toNat.testBit i) := by
  have h := a.toNat_lt
  rw [UInt64.toNat_not, show UInt64.size - 1 - a.toNat = 2 ^ 64 - (a.toNat + 1) by
    simp [UInt64.size]]
  exact Nat.testBit_two_pow_sub_succ h i

@[simp] theorem testBit_toNat_shiftLeft (a : UInt64) {k : Nat} (hk : k < 64) (i : Nat) :
    (a <<< k.toUInt64).toNat.testBit i =
      (decide (i < 64) && (decide (k ≤ i) && a.toNat.testBit (i - k))) := by
  rw [UInt64.toNat_shiftLeft, toNat_toUInt64 hk, Nat.testBit_mod_two_pow, Nat.testBit_shiftLeft]

@[simp] theorem testBit_toNat_shiftRight (a : UInt64) {k : Nat} (hk : k < 64) (i : Nat) :
    (a >>> k.toUInt64).toNat.testBit i = a.toNat.testBit (k + i) := by
  rw [UInt64.toNat_shiftRight, toNat_toUInt64 hk, Nat.testBit_shiftRight]

theorem toNat_one_shiftLeft {k : Nat} (hk : k < 64) : ((1 : UInt64) <<< k.toUInt64).toNat = 2 ^ k := by
  rw [UInt64.toNat_shiftLeft, toNat_toUInt64 hk, Nat.shiftLeft_eq, Nat.mod_eq_of_lt]
  · simp
  · simpa using Nat.pow_lt_pow_right (a := 2) (by decide) hk

/-- A shift by the literal `1`. -/
@[simp] theorem testBit_toNat_shiftLeft_one (a : UInt64) (i : Nat) :
    (a <<< 1).toNat.testBit i = (decide (i < 64) && (decide (1 ≤ i) && a.toNat.testBit (i - 1))) :=
  testBit_toNat_shiftLeft a (k := 1) (by decide) i

@[simp] theorem testBit_toNat_shiftRight_one (a : UInt64) (i : Nat) :
    (a >>> 1).toNat.testBit i = a.toNat.testBit (i + 1) := by
  rw [Nat.add_comm]
  exact testBit_toNat_shiftRight a (k := 1) (by decide) i

theorem toNat_shiftRight_one (a : UInt64) : (a >>> 1).toNat = a.toNat / 2 := by
  rw [UInt64.toNat_shiftRight, Nat.shiftRight_eq_div_pow]
  rfl

theorem toNat_shiftRight {k : Nat} (hk : k < 64) (a : UInt64) :
    (a >>> k.toUInt64).toNat = a.toNat / 2 ^ k := by
  rw [UInt64.toNat_shiftRight, toNat_toUInt64 hk, Nat.shiftRight_eq_div_pow]

theorem and_one_ne_zero_iff (a : UInt64) : a &&& 1 ≠ 0 ↔ a.toNat % 2 = 1 := by
  rw [Ne, ← UInt64.toNat_inj, UInt64.toNat_and]
  simp only [UInt64.toNat_one, UInt64.toNat_zero, Nat.and_one_is_mod]
  omega

/-- `count_ones` is the lowest bit and the count of the word shifted right once. -/
theorem countOnes_eq_mod_add_shiftRight_one (a : UInt64) :
    countOnes a = a.toNat % 2 + countOnes (a >>> 1) := by
  rw [countOnes, countOnes, toNat_shiftRight_one]
  exact Bits.countOnes_eq_mod_add_half a.toNat_lt

end Word
