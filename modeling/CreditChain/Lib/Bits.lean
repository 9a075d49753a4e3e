import Mathlib.Data.Nat.Bitwise

/-!
# Bit counts of a fixed-width word

`trailing_zeros` and `count_ones` of a `w`-bit machine word, read over the first `w` bits of a
natural number, and what arithmetic on bit patterns needs of them:

* `trailingZeros_eq`: the trailing zeros are the index of the lowest one bit;
* `countOnes_mul_two_pow_add` and `countOnes_succ`: the count splits at any power of two, and
  grows by the top bit as the width grows;
* `two_mul_mod_add_le`: `2 v - count_ones v`, the sum of `2^(k+1) - 1` over the one bits `k` of
  `v`, is at most that sum over all `w` bits, `2^(w+1) - 2 - w`.
-/

namespace Bits

/-- `trailing_zeros` of a `w`-bit word: the zero bits below its lowest one bit, `w` when it has
none. -/
def trailingZeros : Nat → Nat → Nat
  | 0, _ => 0
  | w + 1, v => if v % 2 = 1 then 0 else trailingZeros w (v / 2) + 1

/-- `count_ones` of a `w`-bit word. -/
def countOnes : Nat → Nat → Nat
  | 0, _ => 0
  | w + 1, v => v % 2 + countOnes w (v / 2)

theorem trailingZeros_add_one (w v : Nat) :
    trailingZeros (w + 1) v = if v % 2 = 1 then 0 else trailingZeros w (v / 2) + 1 := rfl

theorem countOnes_add_one (w v : Nat) : countOnes (w + 1) v = v % 2 + countOnes w (v / 2) := rfl

/-- A bit at or above the width of a number is clear. -/
theorem testBit_eq_false_of_lt_two_pow {x k i : Nat} (hx : x < 2 ^ k) (hi : k ≤ i) :
    x.testBit i = false :=
  Nat.testBit_lt_two_pow (Nat.lt_of_lt_of_le hx (Nat.pow_le_pow_right (by decide) hi))

/-- The low `l` bits of `p * 2^l + (2^l - 1)` are ones. -/
theorem testBit_mul_two_pow_add_sub_one (p : Nat) {l j : Nat} (hj : j < l) :
    (p * 2 ^ l + (2 ^ l - 1)).testBit j = true := by
  rw [Nat.mul_comm, Nat.testBit_two_pow_mul_add _ (Nat.sub_lt (Nat.two_pow_pos _) Nat.one_pos),
    if_pos hj, Nat.testBit_two_pow_sub_one, decide_eq_true hj]

/-! ### Trailing zeros -/

/-- The trailing zeros of a word are the index of its lowest one bit. -/
theorem trailingZeros_eq {w v l : Nat} (hl : l < w) (hlow : ∀ i < l, v.testBit i = false)
    (hbit : v.testBit l = true) : trailingZeros w v = l := by
  obtain ⟨w, rfl⟩ : ∃ w', w = w' + 1 := ⟨w - 1, by omega⟩
  induction l generalizing w v with
  | zero =>
    have hodd : v % 2 = 1 := by simpa [Nat.testBit_zero] using hbit
    simp [trailingZeros_add_one, hodd]
  | succ l ih =>
    have heven : v % 2 = 0 := by
      have := hlow 0 (by omega)
      simp only [Nat.testBit_zero, decide_eq_false_iff_not] at this
      omega
    obtain ⟨w, rfl⟩ : ∃ w', w = w' + 1 := ⟨w - 1, by omega⟩
    -- halving moves the lowest one bit down by one
    have hrest : trailingZeros (w + 1) (v / 2) = l :=
      ih (fun i hi => by rw [Nat.testBit_div_two]; exact hlow (i + 1) (by omega))
        (by rw [Nat.testBit_div_two]; exact hbit) w (by omega)
    show (if v % 2 = 1 then 0 else trailingZeros (w + 1) (v / 2) + 1) = l + 1
    rw [if_neg (by omega), hrest]

/-- A word with a one bit below its width has its lowest one bit at `trailingZeros`, below the
width, and only zeros under it. -/
theorem trailingZeros_spec {w v : Nat} (hv : v % 2 ^ w ≠ 0) :
    trailingZeros w v < w ∧ v.testBit (trailingZeros w v) = true ∧
      ∀ i < trailingZeros w v, v.testBit i = false := by
  induction w generalizing v with
  | zero => simp [Nat.mod_one] at hv
  | succ w ih =>
    by_cases hodd : v % 2 = 1
    · have h0 : trailingZeros (w + 1) v = 0 := by simp [trailingZeros_add_one, hodd]
      rw [h0]
      exact ⟨by omega, by simpa [Nat.testBit_zero] using hodd, fun i hi => absurd hi (by omega)⟩
    · -- the lowest bit is clear: the count is that of the halved word, plus one
      have hsplit : v % 2 ^ (w + 1) = v % 2 + 2 * (v / 2 % 2 ^ w) := by
        rw [Nat.pow_succ', Nat.mod_mul]
      have hhalf : v / 2 % 2 ^ w ≠ 0 := by
        intro h
        apply hv
        omega
      obtain ⟨hlt, hbit, hlow⟩ := ih hhalf
      have hs : trailingZeros (w + 1) v = trailingZeros w (v / 2) + 1 := by
        simp [trailingZeros_add_one, hodd]
      rw [hs]
      refine ⟨by omega, by rwa [← Nat.testBit_div_two], fun i hi => ?_⟩
      cases i with
      | zero => simpa [Nat.testBit_zero] using hodd
      | succ i =>
        rw [← Nat.testBit_div_two]
        exact hlow i (by omega)

/-! ### Leading zeros -/

/-- `leading_zeros` of a `w`-bit word: the zero bits above its highest one bit, `w` when it has
none. -/
def leadingZeros : Nat → Nat → Nat
  | 0, _ => 0
  | w + 1, v => if v.testBit w then 0 else leadingZeros w v + 1

theorem leadingZeros_succ (w v : Nat) :
    leadingZeros (w + 1) v = if v.testBit w then 0 else leadingZeros w v + 1 := rfl

/-- The leading zeros of a nonzero word are the width, less one, less the index of its highest
one bit. -/
theorem leadingZeros_eq {w v : Nat} (hv : v < 2 ^ w) (h0 : v ≠ 0) :
    leadingZeros w v = w - 1 - Nat.log2 v := by
  induction w with
  | zero =>
    simp only [Nat.pow_zero] at hv
    omega
  | succ w ih =>
    by_cases hbit : v.testBit w
    · -- the top bit is the highest one bit
      have hlog : Nat.log2 v = w := (Nat.log2_eq_iff h0).mpr ⟨Nat.ge_two_pow_of_testBit hbit, hv⟩
      rw [leadingZeros_succ, if_pos hbit, hlog]
      omega
    · -- below a clear top bit, the word fits the narrower width
      have hlt : v < 2 ^ w := Nat.lt_pow_two_of_testBit v fun i hi => by
        rcases Nat.lt_or_eq_of_le hi with hi | rfl
        · exact testBit_eq_false_of_lt_two_pow hv hi
        · exact Bool.eq_false_iff.mpr hbit
      have hlog := (Nat.log2_lt h0).mpr hlt
      rw [leadingZeros_succ, if_neg hbit, ih hlt]
      omega

/-! ### One bits -/

@[simp] theorem countOnes_zero_left (v : Nat) : countOnes 0 v = 0 := rfl

@[simp] theorem countOnes_zero_right (w : Nat) : countOnes w 0 = 0 := by
  induction w with
  | zero => rfl
  | succ w ih => simp [countOnes_add_one, ih]

/-- Splitting a word at bit `k` adds the counts of the two parts. -/
theorem countOnes_mul_two_pow_add {a r : Nat} (k w : Nat) (hr : r < 2 ^ k) :
    countOnes (k + w) (a * 2 ^ k + r) = countOnes k r + countOnes w a := by
  induction k generalizing r with
  | zero =>
    obtain rfl : r = 0 := by simpa using hr
    simp
  | succ k ih =>
    have hmod : (a * 2 ^ (k + 1) + r) % 2 = r % 2 := by
      rw [Nat.pow_succ, ← Nat.mul_assoc]
      omega
    have hdiv : (a * 2 ^ (k + 1) + r) / 2 = a * 2 ^ k + r / 2 := by
      rw [Nat.pow_succ, ← Nat.mul_assoc]
      omega
    have hr' : r / 2 < 2 ^ k := by rw [Nat.pow_succ] at hr; omega
    rw [show k + 1 + w = (k + w) + 1 by omega, countOnes_add_one, hmod, hdiv, ih hr',
      countOnes_add_one]
    omega

theorem countOnes_mul_two_pow (a k w : Nat) : countOnes (k + w) (a * 2 ^ k) = countOnes w a := by
  simpa using countOnes_mul_two_pow_add (a := a) k w (Nat.two_pow_pos k)

@[simp] theorem countOnes_two_pow_sub_one (k : Nat) : countOnes k (2 ^ k - 1) = k := by
  induction k with
  | zero => rfl
  | succ k ih =>
    have h := Nat.one_le_two_pow (n := k)
    have hmod : (2 ^ (k + 1) - 1) % 2 = 1 := by rw [Nat.pow_succ]; omega
    have hdiv : (2 ^ (k + 1) - 1) / 2 = 2 ^ k - 1 := by rw [Nat.pow_succ]; omega
    rw [countOnes_add_one, hmod, hdiv, ih]
    omega

/-- Widening a word by one bit adds its top bit to the count. -/
theorem countOnes_succ (w v : Nat) : countOnes (w + 1) v = countOnes w v + v / 2 ^ w % 2 := by
  induction w generalizing v with
  | zero => simp [countOnes_add_one]
  | succ w ih =>
    show v % 2 + countOnes (w + 1) (v / 2) = (v % 2 + countOnes w (v / 2)) + v / 2 ^ (w + 1) % 2
    rw [ih, Nat.div_div_eq_div_mul, ← pow_succ']
    omega

/-- `count_ones` of a word counts its one bits below the width. -/
theorem countOnes_eq_count (w v : Nat) : countOnes w v = ((List.range w).map v.testBit).count true := by
  induction w with
  | zero => rfl
  | succ w ih =>
    rw [countOnes_succ, ih, List.range_succ, List.map_append, List.count_append, List.map_singleton,
      Nat.testBit_eq_decide_div_mod_eq]
    rcases Nat.mod_two_eq_zero_or_one (v / 2 ^ w) with h | h <;> simp [h]

/-- The count over `w` bits only reads the word modulo `2^w`. -/
theorem countOnes_le_mod (w v : Nat) : countOnes w v ≤ v % 2 ^ w := by
  induction w generalizing v with
  | zero => simp
  | succ w ih =>
    have := ih (v / 2)
    rw [countOnes_add_one, Nat.pow_succ', Nat.mod_mul]
    omega

/-- Clearing one set bit below the width lowers the count by one. -/
theorem countOnes_eq_succ_of_testBit {w n v v' : Nat} (hn : n < w) (hbit : v.testBit n = true)
    (hclear : ∀ i, v'.testBit i = (v.testBit i && i != n)) :
    countOnes w v = countOnes w v' + 1 := by
  induction w generalizing n v v' with
  | zero => omega
  | succ w ih =>
    have hhalf : ∀ i, (v' / 2).testBit i = ((v / 2).testBit i && i + 1 != n) := fun i => by
      rw [Nat.testBit_div_two, Nat.testBit_div_two, hclear]
    show v % 2 + countOnes w (v / 2) = v' % 2 + countOnes w (v' / 2) + 1
    cases n with
    | zero =>
      -- the cleared bit is the lowest: the halves agree
      have hlow : v % 2 = 1 := by simpa [Nat.testBit_zero] using hbit
      have hlow' : v' % 2 = 0 := by simpa [Nat.testBit_zero] using hclear 0
      have heq : v' / 2 = v / 2 := Nat.eq_of_testBit_eq fun i => by simp [hhalf]
      rw [heq]
      omega
    | succ n =>
      -- the lowest bit is kept, and the cleared bit is bit `n` of the halves
      have hlow : v' % 2 = v % 2 := by
        have h0 : v' % 2 = 1 ↔ v % 2 = 1 := by simpa [Nat.testBit_zero] using hclear 0
        omega
      have hbit' : (v / 2).testBit n = true := by
        rw [Nat.testBit_div_two]
        exact hbit
      have hclear' : ∀ i, (v' / 2).testBit i = ((v / 2).testBit i && i != n) := fun i => by
        rw [hhalf]
        simp
      have := ih (by omega) hbit' hclear'
      omega

/-- `2 v - count_ones v + w`, over the low `w` bits of `v`, is at most `2^(w+1) - 2`: the sum of
`2^(k+1) - 1` over the one bits `k < w` is at most the sum over all of them. -/
theorem two_mul_mod_add_le (w v : Nat) :
    2 * (v % 2 ^ w) + w ≤ 2 ^ (w + 1) - 2 + countOnes w v := by
  induction w with
  | zero => simp [Nat.mod_one]
  | succ w ih =>
    -- the new top bit `b` adds `2^(w+1)` to twice the low part and `b` to the count
    have hsplit : v % 2 ^ (w + 1) = v % 2 ^ w + 2 ^ w * (v / 2 ^ w % 2) := Nat.mod_pow_succ
    have hb : v / 2 ^ w % 2 ≤ 1 := Nat.le_of_lt_succ (Nat.mod_lt _ (by decide))
    have hpow : 2 ^ (w + 1 + 1) = 2 * 2 ^ (w + 1) := Nat.pow_succ'
    have hpow' : 2 ^ (w + 1) = 2 * 2 ^ w := Nat.pow_succ'
    rw [countOnes_succ, hsplit, hpow]
    rcases Nat.le_one_iff_eq_zero_or_eq_one.mp hb with hb | hb <;> rw [hb] <;> omega

/-- Below `2^w`, the count is the lowest bit and the count of the half. -/
theorem countOnes_eq_mod_add_half {w v : Nat} (hv : v < 2 ^ w) :
    countOnes w v = v % 2 + countOnes w (v / 2) := by
  cases w with
  | zero =>
    have hv0 : v = 0 := by simpa using hv
    simp [hv0]
  | succ w =>
    -- the half has no bit at `w`
    have htop : v / 2 / 2 ^ w = 0 := by
      rw [Nat.div_div_eq_div_mul, ← Nat.pow_succ']
      exact Nat.div_eq_of_lt hv
    show v % 2 + countOnes w (v / 2) = v % 2 + countOnes (w + 1) (v / 2)
    rw [countOnes_succ w (v / 2), htop, Nat.zero_mod, Nat.add_zero]

/-- Shifting right never raises the count of a word below `2^w`. -/
theorem countOnes_div_two_pow_le {w v : Nat} (hv : v < 2 ^ w) (k : Nat) :
    countOnes w (v / 2 ^ k) ≤ countOnes w v := by
  induction k with
  | zero => simp
  | succ k ih =>
    have hlt : v / 2 ^ k < 2 ^ w := Nat.lt_of_le_of_lt (Nat.div_le_self _ _) hv
    have hhalf := countOnes_eq_mod_add_half hlt
    rw [Nat.pow_succ, ← Nat.div_div_eq_div_mul]
    omega

end Bits
