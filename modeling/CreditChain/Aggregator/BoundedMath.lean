import Mathlib.Tactic.Common

/-!
# Bounded arithmetic of aggregators

The checked arithmetic of `bounded_math.rs`.  Unsigned operations stay in `[0, max_value]`, signed
ones in `[-max_value, max_value]`, and an operation that would leave its range fails with
`Overflow` or `Underflow`.  A `u128` is a natural number here: every addition the code performs is
guarded by a comparison with `max_value`, so no sum it computes can exceed the range of `u128`.

The spec lemmas at the end say what each operation computes in terms of the integer
`SignedU128.toInt`; the rest of the development cites them and never unfolds the operations.
-/

namespace CreditChain

/-- `BoundedMathError`. -/
inductive BoundedMathError
  | overflow
  | underflow
  deriving DecidableEq, Repr

/-- `SignedU128`: a `u128` magnitude with a sign.  (The source's `PartialEq` identifies `+0` and
`-0`; no modelled function compares two signed values, so Lean's structural equality is used.) -/
inductive SignedU128
  | positive (value : Nat)
  | negative (value : Nat)
  deriving DecidableEq, Repr

namespace SignedU128

def isZero : SignedU128 → Bool
  | positive value => value == 0
  | negative value => value == 0

def minus : SignedU128 → SignedU128
  | positive value => negative value
  | negative value => positive value

def abs : SignedU128 → Nat
  | positive value => value
  | negative value => value

/-- The integer a signed value stands for. -/
def toInt : SignedU128 → Int
  | positive value => value
  | negative value => -value

@[simp] theorem isZero_positive (v : Nat) : (positive v).isZero = (v == 0) := rfl
@[simp] theorem isZero_negative (v : Nat) : (negative v).isZero = (v == 0) := rfl
@[simp] theorem toInt_positive (v : Nat) : (positive v).toInt = v := rfl
@[simp] theorem toInt_negative (v : Nat) : (negative v).toInt = -v := rfl
@[simp] theorem minus_positive (v : Nat) : (positive v).minus = negative v := rfl
@[simp] theorem minus_negative (v : Nat) : (negative v).minus = positive v := rfl
@[simp] theorem abs_positive (v : Nat) : (positive v).abs = v := rfl
@[simp] theorem abs_negative (v : Nat) : (negative v).abs = v := rfl

@[simp] theorem toInt_minus (d : SignedU128) : d.minus.toInt = -d.toInt := by
  cases d <;> simp

theorem natAbs_toInt (d : SignedU128) : d.toInt.natAbs = d.abs := by
  cases d <;> simp

theorem isZero_iff (d : SignedU128) : d.isZero = true ↔ d.toInt = 0 := by
  cases d <;> simp

end SignedU128

open SignedU128

/-- `ok_overflow`: an overflow becomes `None`, an underflow stays an error. -/
def okOverflow {α : Type} : Except BoundedMathError α → Except BoundedMathError (Option α)
  | .ok value => .ok (some value)
  | .error .overflow => .ok none
  | .error .underflow => .error .underflow

/-- `ok_underflow`: an underflow becomes `None`, an overflow stays an error. -/
def okUnderflow {α : Type} : Except BoundedMathError α → Except BoundedMathError (Option α)
  | .ok value => .ok (some value)
  | .error .overflow => .error .overflow
  | .error .underflow => .ok none

/-- `negate_error`. -/
def negateError {α : Type} : Except BoundedMathError α → Except BoundedMathError α
  | .ok value => .ok value
  | .error .overflow => .error .underflow
  | .error .underflow => .error .overflow

theorem okOverflow_ok {α : Type} (value : α) :
    okOverflow (.ok value : Except BoundedMathError α) = .ok (some value) := rfl
theorem okOverflow_overflow {α : Type} :
    okOverflow (.error .overflow : Except BoundedMathError α) = .ok none := rfl
theorem okOverflow_underflow {α : Type} :
    okOverflow (.error .underflow : Except BoundedMathError α) = .error .underflow := rfl
theorem okUnderflow_ok {α : Type} (value : α) :
    okUnderflow (.ok value : Except BoundedMathError α) = .ok (some value) := rfl
theorem okUnderflow_overflow {α : Type} :
    okUnderflow (.error .overflow : Except BoundedMathError α) = .error .overflow := rfl
theorem okUnderflow_underflow {α : Type} :
    okUnderflow (.error .underflow : Except BoundedMathError α) = .ok none := rfl
theorem negateError_ok {α : Type} (value : α) :
    negateError (.ok value : Except BoundedMathError α) = .ok value := rfl
theorem negateError_overflow {α : Type} :
    negateError (.error .overflow : Except BoundedMathError α) = .error .underflow := rfl
theorem negateError_underflow {α : Type} :
    negateError (.error .underflow : Except BoundedMathError α) = .error .overflow := rfl

/-- `BoundedMath`: the operations below read only its `max_value`. -/
structure BoundedMath where
  maxValue : Nat

namespace BoundedMath

def unsignedAdd (math : BoundedMath) (base value : Nat) : Except BoundedMathError Nat :=
  if math.maxValue < base ∨ value > math.maxValue - base then .error .overflow
  else .ok (base + value)

def unsignedSubtract (_math : BoundedMath) (base value : Nat) : Except BoundedMathError Nat :=
  if value > base then .error .underflow else .ok (base - value)

def unsignedAddDelta (math : BoundedMath) (base : Nat) : SignedU128 → Except BoundedMathError Nat
  | positive value => math.unsignedAdd base value
  | negative value => math.unsignedSubtract base value

theorem unsignedAddDelta_positive (math : BoundedMath) (base value : Nat) :
    math.unsignedAddDelta base (positive value) = math.unsignedAdd base value := rfl
theorem unsignedAddDelta_negative (math : BoundedMath) (base value : Nat) :
    math.unsignedAddDelta base (negative value) = math.unsignedSubtract base value := rfl

/-- The `update_different_sign!` macro of `signed_add`: `+a` merged with `-b`. -/
def updateDifferentSign (math : BoundedMath) (a b : Nat) : Except BoundedMathError SignedU128 :=
  if a ≥ b then positive <$> math.unsignedSubtract a b
  else negative <$> math.unsignedSubtract b a

def signedAdd (math : BoundedMath) : SignedU128 → SignedU128 → Except BoundedMathError SignedU128
  | positive v1, positive v2 => positive <$> math.unsignedAdd v1 v2
  | positive v1, negative v2 => math.updateDifferentSign v1 v2
  | negative v1, positive v2 => math.updateDifferentSign v2 v1
  | negative v1, negative v2 => negative <$> negateError (math.unsignedAdd v1 v2)

/-! ### Spec lemmas -/

variable {math : BoundedMath}

theorem unsignedAdd_eq_ok {base value r : Nat} :
    math.unsignedAdd base value = .ok r ↔ base + value ≤ math.maxValue ∧ r = base + value := by
  unfold unsignedAdd
  split
  · simp only [reduceCtorEq, false_iff]
    omega
  · simp only [Except.ok.injEq]
    omega

theorem unsignedAdd_eq_error {base value : Nat} {e : BoundedMathError} :
    math.unsignedAdd base value = .error e ↔ math.maxValue < base + value ∧ e = .overflow := by
  unfold unsignedAdd
  split
  · simp only [Except.error.injEq]
    constructor
    · rintro rfl; exact ⟨by omega, rfl⟩
    · rintro ⟨-, rfl⟩; rfl
  · simp only [reduceCtorEq, false_iff, not_and]
    intro h; omega

theorem unsignedSubtract_eq_ok {base value r : Nat} :
    math.unsignedSubtract base value = .ok r ↔ value ≤ base ∧ r = base - value := by
  unfold unsignedSubtract
  split
  · simp only [reduceCtorEq, false_iff]
    omega
  · simp only [Except.ok.injEq]
    omega

theorem unsignedSubtract_eq_error {base value : Nat} {e : BoundedMathError} :
    math.unsignedSubtract base value = .error e ↔ base < value ∧ e = .underflow := by
  unfold unsignedSubtract
  split
  · simp only [Except.error.injEq]
    constructor
    · rintro rfl; exact ⟨by omega, rfl⟩
    · rintro ⟨-, rfl⟩; rfl
  · simp only [reduceCtorEq, false_iff, not_and]
    intro h; omega

/-- On a base in range, `unsigned_add_delta` succeeds exactly when the integer sum stays in
`[0, max_value]`, and then returns that sum. -/
theorem unsignedAddDelta_eq_ok {base r : Nat} {d : SignedU128} (hb : base ≤ math.maxValue) :
    math.unsignedAddDelta base d = .ok r ↔
      0 ≤ (base : Int) + d.toInt ∧ (base : Int) + d.toInt ≤ math.maxValue ∧
        (r : Int) = base + d.toInt := by
  cases d with
  | positive v => simp only [unsignedAddDelta_positive, unsignedAdd_eq_ok, toInt_positive]; omega
  | negative v => simp only [unsignedAddDelta_negative, unsignedSubtract_eq_ok, toInt_negative]; omega

/-- The failure of `unsigned_add_delta` on a base in range: overflow above `max_value`, underflow
below zero. -/
theorem unsignedAddDelta_eq_error {base : Nat} {d : SignedU128} {e : BoundedMathError}
    (hb : base ≤ math.maxValue) :
    math.unsignedAddDelta base d = .error e ↔
      ((math.maxValue : Int) < base + d.toInt ∧ e = .overflow) ∨
        ((base : Int) + d.toInt < 0 ∧ e = .underflow) := by
  cases d with
  | positive v =>
    simp only [unsignedAddDelta_positive, unsignedAdd_eq_error, toInt_positive]
    constructor
    · rintro ⟨h, rfl⟩; exact .inl ⟨by omega, rfl⟩
    · rintro (⟨h, rfl⟩ | ⟨h, -⟩)
      · exact ⟨by omega, rfl⟩
      · omega
  | negative v =>
    simp only [unsignedAddDelta_negative, unsignedSubtract_eq_error, toInt_negative]
    constructor
    · rintro ⟨h, rfl⟩; exact .inr ⟨by omega, rfl⟩
    · rintro (⟨h, -⟩ | ⟨h, rfl⟩)
      · omega
      · exact ⟨by omega, rfl⟩

/-- `unsigned_add_delta` on a base in range fails exactly when the integer sum leaves
`[0, max_value]`. -/
theorem unsignedAddDelta_isOk_iff {base : Nat} {d : SignedU128} (hb : base ≤ math.maxValue) :
    (∃ r, math.unsignedAddDelta base d = .ok r) ↔
      0 ≤ (base : Int) + d.toInt ∧ (base : Int) + d.toInt ≤ math.maxValue := by
  constructor
  · rintro ⟨r, hr⟩
    exact ((unsignedAddDelta_eq_ok hb).1 hr).imp_right And.left
  · rintro ⟨h0, h1⟩
    refine ⟨((base : Int) + d.toInt).toNat, (unsignedAddDelta_eq_ok hb).2 ⟨h0, h1, ?_⟩⟩
    omega

private theorem updateDifferentSign_eq_ok {a b : Nat} {r : SignedU128} :
    math.updateDifferentSign a b = .ok r → r.toInt = (a : Int) - b := by
  unfold updateDifferentSign
  split
  · cases h : math.unsignedSubtract a b with
    | error e => simp
    | ok v =>
      rw [unsignedSubtract_eq_ok] at h
      rintro ⟨⟩
      simp only [toInt_positive]; omega
  · cases h : math.unsignedSubtract b a with
    | error e => simp
    | ok v =>
      rw [unsignedSubtract_eq_ok] at h
      rintro ⟨⟩
      simp only [toInt_negative]; omega

private theorem updateDifferentSign_isOk (a b : Nat) : ∃ r, math.updateDifferentSign a b = .ok r := by
  unfold updateDifferentSign
  split
  · have h : math.unsignedSubtract a b = .ok (a - b) := Iff.mpr unsignedSubtract_eq_ok ⟨by omega, rfl⟩
    exact ⟨positive (a - b), by simp [h]⟩
  · have h : math.unsignedSubtract b a = .ok (b - a) := Iff.mpr unsignedSubtract_eq_ok ⟨by omega, rfl⟩
    exact ⟨negative (b - a), by simp [h]⟩

/-- `signed_add` adds the two integers. -/
theorem signedAdd_toInt {d1 d2 r : SignedU128} (h : math.signedAdd d1 d2 = .ok r) :
    r.toInt = d1.toInt + d2.toInt := by
  cases d1 <;> cases d2 <;> delta signedAdd at h <;> dsimp only at h
  case positive.positive v1 v2 =>
    cases hs : math.unsignedAdd v1 v2 with
    | error e => simp [hs] at h
    | ok v =>
      simp only [hs, Except.map_ok, Except.ok.injEq] at h
      subst h
      simp only [toInt_positive]
      rw [unsignedAdd_eq_ok] at hs; omega
  case positive.negative v1 v2 =>
    simp only [updateDifferentSign_eq_ok h, toInt_positive, toInt_negative]; omega
  case negative.positive v1 v2 =>
    simp only [updateDifferentSign_eq_ok h, toInt_positive, toInt_negative]; omega
  case negative.negative v1 v2 =>
    cases hs : math.unsignedAdd v1 v2 with
    | error e => cases e <;> simp [hs, negateError_overflow, negateError_underflow] at h
    | ok v =>
      simp only [hs, negateError_ok, Except.map_ok, Except.ok.injEq] at h
      subst h
      simp only [toInt_negative]
      rw [unsignedAdd_eq_ok] at hs; omega

/-- `signed_add` can only fail when both deltas have the same sign and their sum leaves
`[-max_value, max_value]`. -/
theorem signedAdd_isOk {d1 d2 : SignedU128}
    (hpos : ∀ v, d1 = positive v → d1.toInt + d2.toInt ≤ math.maxValue)
    (hneg : ∀ v, d1 = negative v → -(math.maxValue : Int) ≤ d1.toInt + d2.toInt) :
    ∃ r, math.signedAdd d1 d2 = .ok r := by
  cases d1 <;> cases d2 <;> delta signedAdd <;> dsimp only
  case positive.positive v1 v2 =>
    have h := hpos v1 rfl
    simp only [toInt_positive] at h
    have hs : math.unsignedAdd v1 v2 = .ok (v1 + v2) := Iff.mpr unsignedAdd_eq_ok ⟨by omega, rfl⟩
    exact ⟨positive (v1 + v2), by simp [hs]⟩
  case positive.negative v1 v2 => exact updateDifferentSign_isOk v1 v2
  case negative.positive v1 v2 => exact updateDifferentSign_isOk v2 v1
  case negative.negative v1 v2 =>
    have h := hneg v1 rfl
    simp only [toInt_negative] at h
    have hs : math.unsignedAdd v1 v2 = .ok (v1 + v2) := Iff.mpr unsignedAdd_eq_ok ⟨by omega, rfl⟩
    exact ⟨negative (v1 + v2), by simp [hs, negateError_ok]⟩

/-- One bound shifted by `unsigned_add_delta` inside `ok_overflow`: `None` only above the range,
an error only below zero, and otherwise the integer sum, in range when the bound was. -/
theorem okOverflow_unsignedAddDelta_eq_ok {o : Nat} {d : SignedU128} {a : Option Nat}
    (h : okOverflow (math.unsignedAddDelta o d) = .ok a) :
    0 ≤ (o : Int) + d.toInt ∧ (a = none → (math.maxValue : Int) < o + d.toInt) ∧
      ∀ w ∈ a, (w : Int) = o + d.toInt ∧ (o ≤ math.maxValue → w ≤ math.maxValue) := by
  cases d with
  | positive v =>
    cases hr : math.unsignedAdd o v with
    | ok w =>
      obtain ⟨hw, rfl⟩ := Iff.mp unsignedAdd_eq_ok hr
      simp only [unsignedAddDelta_positive, hr, okOverflow_ok, Except.ok.injEq] at h
      subst h
      refine ⟨by simp only [toInt_positive]; omega, by simp, ?_⟩
      simp only [Option.mem_def, Option.some.injEq, forall_eq', toInt_positive]
      omega
    | error e =>
      obtain ⟨h1, rfl⟩ := Iff.mp unsignedAdd_eq_error hr
      simp only [unsignedAddDelta_positive, hr, okOverflow_overflow, Except.ok.injEq] at h
      subst h
      refine ⟨by simp only [toInt_positive]; omega, fun _ => by simp only [toInt_positive]; omega,
        by simp⟩
  | negative v =>
    cases hr : math.unsignedSubtract o v with
    | ok w =>
      obtain ⟨h1, rfl⟩ := Iff.mp unsignedSubtract_eq_ok hr
      simp only [unsignedAddDelta_negative, hr, okOverflow_ok, Except.ok.injEq] at h
      subst h
      refine ⟨by simp only [toInt_negative]; omega, by simp, ?_⟩
      simp only [Option.mem_def, Option.some.injEq, forall_eq', toInt_negative]
      omega
    | error e =>
      obtain ⟨-, rfl⟩ := Iff.mp unsignedSubtract_eq_error hr
      simp [unsignedAddDelta_negative, hr, okOverflow_underflow] at h

theorem okOverflow_unsignedAddDelta_eq_error {o : Nat} {d : SignedU128} {e : BoundedMathError}
    (h : okOverflow (math.unsignedAddDelta o d) = .error e) : (o : Int) + d.toInt < 0 := by
  cases d with
  | positive v =>
    cases hr : math.unsignedAdd o v with
    | ok w => simp [unsignedAddDelta_positive, hr, okOverflow_ok] at h
    | error e =>
      obtain ⟨-, rfl⟩ := Iff.mp unsignedAdd_eq_error hr
      simp [unsignedAddDelta_positive, hr, okOverflow_overflow] at h
  | negative v =>
    cases hr : math.unsignedSubtract o v with
    | ok w => simp [unsignedAddDelta_negative, hr, okOverflow_ok] at h
    | error e =>
      have := (Iff.mp unsignedSubtract_eq_error hr).1
      simp only [toInt_negative]; omega

end BoundedMath

end CreditChain
