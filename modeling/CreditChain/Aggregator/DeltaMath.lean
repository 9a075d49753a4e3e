import CreditChain.Aggregator.Types

/-!
# Delta histories

`DeltaHistory` of `delta_math.rs` keeps four numbers about the `try_add`/`try_sub` calls of one
transaction: the largest positive and negative accumulated deltas that were achieved, and the
smallest positive and negative accumulated deltas that failed.  `validate_against_base_value`
checks that a base value would have given the same outcomes; `offset_and_merge_history` shifts a
later history by an earlier delta and merges it with the earlier history.

The meaning of a history is `DeltaHistory.Admits`: the set of (integer) bases on which its four
bounds hold.  The spec lemmas say

* validation accepts exactly the admitted bases (`validateAgainstBaseValue_eq_ok`);
* each `record_*` intersects the admitted set with one half-line (`admits_recordSuccess`, …);
* `offset_and_merge_history` admits `x` exactly when the earlier history admits `x` and the later
  one admits `x + delta`, and fails only when no base is admitted by both
  (`admits_offsetAndMergeHistory`, `not_admits_of_offsetAndMergeHistory_eq_error`).
-/

namespace CreditChain

open SignedU128

/-- `DeltaHistory`. -/
structure DeltaHistory where
  maxAchievedPositiveDelta : Nat
  minAchievedNegativeDelta : Nat
  minOverflowPositiveDelta : Option Nat
  maxUnderflowNegativeDelta : Option Nat
  deriving DecidableEq, Repr

namespace DeltaHistory

def new : DeltaHistory :=
  { maxAchievedPositiveDelta := 0
    minAchievedNegativeDelta := 0
    minOverflowPositiveDelta := none
    maxUnderflowNegativeDelta := none }

def isEmpty (self : DeltaHistory) : Bool :=
  self.maxAchievedPositiveDelta == 0 && self.minAchievedNegativeDelta == 0 &&
    self.minOverflowPositiveDelta.isNone && self.maxUnderflowNegativeDelta.isNone

/-- `record_success`: called after a successful operation with the new accumulated delta. -/
def recordSuccess (self : DeltaHistory) : SignedU128 → DeltaHistory
  | positive value =>
    { self with maxAchievedPositiveDelta := max self.maxAchievedPositiveDelta value }
  | negative value =>
    { self with minAchievedNegativeDelta := max self.minAchievedNegativeDelta value }

theorem recordSuccess_positive (self : DeltaHistory) (value : Nat) :
    self.recordSuccess (positive value) =
      { self with maxAchievedPositiveDelta := max self.maxAchievedPositiveDelta value } := rfl

theorem recordSuccess_negative (self : DeltaHistory) (value : Nat) :
    self.recordSuccess (negative value) =
      { self with minAchievedNegativeDelta := max self.minAchievedNegativeDelta value } := rfl

/-- `record_failure`. -/
def recordFailure (field : Option Nat) (delta : Nat) : Option Nat :=
  field.elim (some delta) fun m => some (min m delta)

theorem recordFailure_none (delta : Nat) : recordFailure none delta = some delta := rfl

theorem recordFailure_some (m delta : Nat) :
    recordFailure (some m) delta = some (min m delta) := rfl

def recordOverflow (self : DeltaHistory) (delta : Nat) : DeltaHistory :=
  { self with minOverflowPositiveDelta := recordFailure self.minOverflowPositiveDelta delta }

def recordUnderflow (self : DeltaHistory) (delta : Nat) : DeltaHistory :=
  { self with maxUnderflowNegativeDelta := recordFailure self.maxUnderflowNegativeDelta delta }

/-- `validate_against_base_value`.  The subtraction `max_value - min_overflow_positive_delta` is
a checked `u128` subtraction in the source; the histories this development builds or assumes keep
every failure bound at most `max_value` (`FailuresBounded`), where it is exact. -/
def validateAgainstBaseValue (self : DeltaHistory) (baseValue maxValue : Nat) :
    Except DelayedFieldsSpeculativeError Unit := do
  let math : BoundedMath := ⟨maxValue⟩
  let _ ← (math.unsignedAdd baseValue self.maxAchievedPositiveDelta).mapError fun _ =>
    .deltaApplication baseValue maxValue (positive self.maxAchievedPositiveDelta) .overflow
  let _ ← (math.unsignedSubtract baseValue self.minAchievedNegativeDelta).mapError fun _ =>
    .deltaApplication baseValue maxValue (negative self.minAchievedNegativeDelta) .underflow
  if let some minOverflowPositiveDelta := self.minOverflowPositiveDelta then
    if baseValue ≤ maxValue - minOverflowPositiveDelta then
      throw (.deltaApplication baseValue maxValue (positive minOverflowPositiveDelta)
        .expectedOverflow)
  if let some maxUnderflowNegativeDelta := self.maxUnderflowNegativeDelta then
    if baseValue ≥ maxUnderflowNegativeDelta then
      throw (.deltaApplication baseValue maxValue (negative maxUnderflowNegativeDelta)
        .expectedUnderflow)
  pure ()

/-- `offset_and_merge_min_overflow`: the failure bound `min_overflow` shifted by `prev_delta`
(dropped when it leaves the range, an error when it crosses zero), merged with the earlier bound
by `min`. -/
def offsetAndMergeMinOverflow (minOverflow : Option Nat) (prevDelta : SignedU128)
    (prevMinOverflow : Option Nat) (math : BoundedMath) :
    Except DelayedFieldsSpeculativeError (Option Nat) := do
  let adjustedMinOverflow ← minOverflow.elim (pure none) fun minOverflow =>
    (okOverflow (math.unsignedAddDelta minOverflow prevDelta)).mapError fun _ =>
      .deltaHistoryMergeOffset minOverflow prevDelta math.maxValue
        .failureNotExceedingBoundsAnyMore
  pure <| match adjustedMinOverflow, prevMinOverflow with
    | some a, some b => some (min a b)
    | a, b => a.or b

/-- `offset_and_merge_max_achieved`: the achieved bound shifted by `prev_delta` (ignored when it
crosses zero, an error when it exceeds the range), merged with the earlier bound by `max`. -/
def offsetAndMergeMaxAchieved (maxAchieved : Nat) (prevDelta : SignedU128) (prevMaxAchieved : Nat)
    (math : BoundedMath) : Except DelayedFieldsSpeculativeError Nat := do
  let value ← (okUnderflow (math.unsignedAddDelta maxAchieved prevDelta)).mapError fun _ =>
    .deltaHistoryMergeOffset maxAchieved prevDelta math.maxValue .achievedExceedsBounds
  pure (value.elim prevMaxAchieved fun value => max prevMaxAchieved value)

/-- `offset_and_merge_history`: `self` is the history of the later delta, `prev_history` that of
the earlier one, whose accumulated delta is `prev_delta`. -/
def offsetAndMergeHistory (self : DeltaHistory) (prevDelta : SignedU128)
    (prevHistory : DeltaHistory) (maxValue : Nat) :
    Except DelayedFieldsSpeculativeError DeltaHistory := do
  let math : BoundedMath := ⟨maxValue⟩
  let newMinOverflow ← offsetAndMergeMinOverflow self.minOverflowPositiveDelta prevDelta
    prevHistory.minOverflowPositiveDelta math
  -- max_underflow is identical to min_overflow, offset in the opposite direction
  let newMaxUnderflow ← offsetAndMergeMinOverflow self.maxUnderflowNegativeDelta prevDelta.minus
    prevHistory.maxUnderflowNegativeDelta math
  let newMaxAchieved ← offsetAndMergeMaxAchieved self.maxAchievedPositiveDelta prevDelta
    prevHistory.maxAchievedPositiveDelta math
  let newMinAchieved ← offsetAndMergeMaxAchieved self.minAchievedNegativeDelta prevDelta.minus
    prevHistory.minAchievedNegativeDelta math
  -- `unwrap` is taken of a bound that `is_some_and` has just found present
  if newMinOverflow.any (· ≤ newMaxAchieved) then
    throw (.deltaHistoryMergeAchievedAndFailureOverlap (positive newMaxAchieved)
      (positive (newMinOverflow.getD 0)))
  else if newMaxUnderflow.any (· ≤ newMinAchieved) then
    throw (.deltaHistoryMergeAchievedAndFailureOverlap (negative newMinAchieved)
      (negative (newMaxUnderflow.getD 0)))
  else
    pure
      { maxAchievedPositiveDelta := newMaxAchieved
        minAchievedNegativeDelta := newMinAchieved
        minOverflowPositiveDelta := newMinOverflow
        maxUnderflowNegativeDelta := newMaxUnderflow }

/-! ### What a history admits -/

/-- The integer bases on which the four bounds of a history hold. -/
def Admits (self : DeltaHistory) (maxValue : Nat) (base : Int) : Prop :=
  base + self.maxAchievedPositiveDelta ≤ maxValue ∧ (self.minAchievedNegativeDelta : Int) ≤ base ∧
    (∀ o ∈ self.minOverflowPositiveDelta, (maxValue : Int) < base + o) ∧
    ∀ u ∈ self.maxUnderflowNegativeDelta, base < u

instance (self : DeltaHistory) (maxValue : Nat) (base : Int) :
    Decidable (self.Admits maxValue base) :=
  inferInstanceAs (Decidable (_ ∧ _ ∧ _ ∧ _))

theorem admits_iff {self : DeltaHistory} {maxValue : Nat} {base : Int} :
    self.Admits maxValue base ↔
      base + self.maxAchievedPositiveDelta ≤ maxValue ∧ (self.minAchievedNegativeDelta : Int) ≤ base ∧
        (∀ o ∈ self.minOverflowPositiveDelta, (maxValue : Int) < base + o) ∧
        ∀ u ∈ self.maxUnderflowNegativeDelta, base < u := Iff.rfl

/-- Both failure bounds lie in `[0, max_value]`. -/
def FailuresBounded (self : DeltaHistory) (maxValue : Nat) : Prop :=
  (∀ o ∈ self.minOverflowPositiveDelta, o ≤ maxValue) ∧ ∀ u ∈ self.maxUnderflowNegativeDelta, u ≤ maxValue

instance (self : DeltaHistory) (maxValue : Nat) : Decidable (self.FailuresBounded maxValue) :=
  inferInstanceAs (Decidable (_ ∧ _))

/-- The accumulated delta lies within the achieved bounds: the well-formedness of a delta
together with its history. -/
def Covers (self : DeltaHistory) (delta : SignedU128) : Prop :=
  -(self.minAchievedNegativeDelta : Int) ≤ delta.toInt ∧ delta.toInt ≤ self.maxAchievedPositiveDelta

instance (self : DeltaHistory) (delta : SignedU128) : Decidable (self.Covers delta) :=
  inferInstanceAs (Decidable (_ ∧ _))

theorem covers_iff {self : DeltaHistory} {delta : SignedU128} :
    self.Covers delta ↔
      -(self.minAchievedNegativeDelta : Int) ≤ delta.toInt ∧
        delta.toInt ≤ self.maxAchievedPositiveDelta := Iff.rfl

variable {h : DeltaHistory} {maxValue : Nat} {x : Int}

/-- An admitted base lies in `[0, max_value]`. -/
theorem Admits.range (hx : h.Admits maxValue x) : 0 ≤ x ∧ x ≤ maxValue := by
  obtain ⟨h1, h2, -⟩ := hx
  omega

/-- A covered delta moves an admitted base to a value in range. -/
theorem Admits.add_covers {d : SignedU128} (hx : h.Admits maxValue x) (hc : h.Covers d) :
    0 ≤ x + d.toInt ∧ x + d.toInt ≤ maxValue := by
  obtain ⟨h1, h2, -⟩ := hx
  obtain ⟨h3, h4⟩ := hc
  omega

theorem admits_new_iff : new.Admits maxValue x ↔ 0 ≤ x ∧ x ≤ maxValue := by
  delta new
  simp only [admits_iff]
  constructor
  · rintro ⟨h1, h2, -⟩; omega
  · rintro ⟨h1, h2⟩; exact ⟨by omega, by omega, by simp, by simp⟩

theorem failuresBounded_new : new.FailuresBounded maxValue := by
  constructor <;> intro _ h <;> cases h

/-! ### Validation -/

private theorem validate_eq_ok_iff_aux {base : Nat} :
    h.validateAgainstBaseValue base maxValue = .ok () ↔
      base + h.maxAchievedPositiveDelta ≤ maxValue ∧ h.minAchievedNegativeDelta ≤ base ∧
        (∀ o ∈ h.minOverflowPositiveDelta, ¬ base ≤ maxValue - o) ∧
        ∀ u ∈ h.maxUnderflowNegativeDelta, ¬ base ≥ u := by
  obtain ⟨A, B, O, U⟩ := h
  unfold validateAgainstBaseValue
  dsimp only
  cases hA : (BoundedMath.mk maxValue).unsignedAdd base A with
  | error e =>
    simp only [hA, Except.mapError_error, Except.error_bind, reduceCtorEq,
      false_iff, not_and]
    have h1 : maxValue < base + A := (BoundedMath.unsignedAdd_eq_error.1 hA).1
    intro h2; omega
  | ok a =>
    have h1 : base + A ≤ maxValue := (BoundedMath.unsignedAdd_eq_ok.1 hA).1
    cases hB : (BoundedMath.mk maxValue).unsignedSubtract base B with
    | error e =>
      simp only [hA, hB, Except.mapError_ok, Except.mapError_error,
        Except.ok_bind, Except.error_bind, reduceCtorEq, false_iff, not_and]
      have h2 : base < B := (BoundedMath.unsignedSubtract_eq_error.1 hB).1
      intro _ h3; omega
    | ok b =>
      have h2 : B ≤ base := (BoundedMath.unsignedSubtract_eq_ok.1 hB).1
      simp only [hA, hB, Except.mapError_ok, Except.ok_bind]
      -- the two optional checks, each present or absent
      cases O <;> cases U <;> simp only [] <;> (try split_ifs) <;> simp_all

/-- Validation accepts exactly the admitted bases (for a history whose failure bounds lie in
range). -/
theorem validateAgainstBaseValue_eq_ok {base : Nat} (hb : h.FailuresBounded maxValue) :
    h.validateAgainstBaseValue base maxValue = .ok () ↔ h.Admits maxValue base := by
  rw [validate_eq_ok_iff_aux, admits_iff]
  obtain ⟨hO, hU⟩ := hb
  constructor
  · rintro ⟨h1, h2, h3, h4⟩
    refine ⟨by omega, by omega, fun o ho => ?_, fun u hu => ?_⟩
    · have := h3 o ho; have := hO o ho; omega
    · have := h4 u hu; omega
  · rintro ⟨h1, h2, h3, h4⟩
    refine ⟨by omega, by omega, fun o ho => ?_, fun u hu => ?_⟩
    · have := h3 o ho; have := hO o ho; omega
    · have := h4 u hu; omega

/-! ### Recording outcomes -/

theorem admits_recordSuccess (d : SignedU128) :
    (h.recordSuccess d).Admits maxValue x ↔
      h.Admits maxValue x ∧ 0 ≤ x + d.toInt ∧ x + d.toInt ≤ maxValue := by
  cases d with
  | positive v =>
    simp only [recordSuccess_positive, admits_iff, toInt_positive]
    constructor
    · rintro ⟨h1, h2, h3, h4⟩; exact ⟨⟨by omega, h2, h3, h4⟩, by omega, by omega⟩
    · rintro ⟨⟨h1, h2, h3, h4⟩, h5, h6⟩; exact ⟨by omega, h2, h3, h4⟩
  | negative v =>
    simp only [recordSuccess_negative, admits_iff, toInt_negative]
    constructor
    · rintro ⟨h1, h2, h3, h4⟩; exact ⟨⟨h1, by omega, h3, h4⟩, by omega, by omega⟩
    · rintro ⟨⟨h1, h2, h3, h4⟩, h5, h6⟩; exact ⟨h1, by omega, h3, h4⟩

private theorem forall_mem_recordFailure {P : Nat → Prop} (hP : ∀ a b, P (min a b) ↔ P a ∧ P b)
    (field : Option Nat) (delta : Nat) :
    (∀ v ∈ recordFailure field delta, P v) ↔ (∀ v ∈ field, P v) ∧ P delta := by
  cases field <;> simp [recordFailure_none, recordFailure_some, hP]

theorem admits_recordOverflow (delta : Nat) :
    (h.recordOverflow delta).Admits maxValue x ↔ h.Admits maxValue x ∧ (maxValue : Int) < x + delta := by
  have hP : ∀ a b : Nat, (maxValue : Int) < x + (min a b : Nat) ↔
      (maxValue : Int) < x + a ∧ (maxValue : Int) < x + b := by
    intro a b; omega
  unfold recordOverflow
  simp only [admits_iff, @forall_mem_recordFailure (fun v : Nat => (maxValue : Int) < x + v) hP]
  tauto

theorem admits_recordUnderflow (delta : Nat) :
    (h.recordUnderflow delta).Admits maxValue x ↔ h.Admits maxValue x ∧ x < delta := by
  have hP : ∀ a b : Nat, x < (min a b : Nat) ↔ x < a ∧ x < b := by
    intro a b; omega
  unfold recordUnderflow
  simp only [admits_iff, @forall_mem_recordFailure (fun v : Nat => x < v) hP]
  tauto

theorem FailuresBounded.recordSuccess (hb : h.FailuresBounded maxValue) (d : SignedU128) :
    (h.recordSuccess d).FailuresBounded maxValue := by
  cases d <;> exact hb

theorem FailuresBounded.recordOverflow (hb : h.FailuresBounded maxValue) {delta : Nat}
    (hd : delta ≤ maxValue) : (h.recordOverflow delta).FailuresBounded maxValue := by
  refine ⟨fun v hv => ?_, hb.2⟩
  change v ∈ recordFailure h.minOverflowPositiveDelta delta at hv
  -- a recorded failure is the new delta or the minimum of it and the old bound
  cases ho : h.minOverflowPositiveDelta <;>
    simp only [recordFailure_none, recordFailure_some, ho,
      Option.mem_def, Option.some.injEq] at hv <;> omega

theorem FailuresBounded.recordUnderflow (hb : h.FailuresBounded maxValue) {delta : Nat}
    (hd : delta ≤ maxValue) : (h.recordUnderflow delta).FailuresBounded maxValue := by
  refine ⟨hb.1, fun v hv => ?_⟩
  change v ∈ recordFailure h.maxUnderflowNegativeDelta delta at hv
  cases ho : h.maxUnderflowNegativeDelta <;>
    simp only [recordFailure_none, recordFailure_some, ho,
      Option.mem_def, Option.some.injEq] at hv <;> omega

/-- What a history covers depends on the delta's integer value only. -/
theorem Covers.of_toInt_eq {d s : SignedU128} (hc : h.Covers d) (he : s.toInt = d.toInt) :
    h.Covers s := by
  unfold Covers at *
  rw [he]
  exact hc

/-- A success records its new accumulated delta, so the history covers it. -/
theorem covers_recordSuccess (d : SignedU128) : (h.recordSuccess d).Covers d := by
  cases d <;> simp only [recordSuccess_positive, recordSuccess_negative, covers_iff, toInt_positive,
    toInt_negative] <;> omega

/-- Failures leave the achieved bounds, and so what a history covers, unchanged. -/
@[simp] theorem covers_recordOverflow {d : SignedU128} (delta : Nat) :
    (h.recordOverflow delta).Covers d ↔ h.Covers d := Iff.rfl

@[simp] theorem covers_recordUnderflow {d : SignedU128} (delta : Nat) :
    (h.recordUnderflow delta).Covers d ↔ h.Covers d := Iff.rfl

/-- The fresh history covers the zero delta only. -/
theorem covers_new_iff {d : SignedU128} : new.Covers d ↔ d.toInt = 0 := by
  rw [covers_iff]
  show -((0 : Nat) : Int) ≤ d.toInt ∧ d.toInt ≤ ((0 : Nat) : Int) ↔ _
  omega

/-! ### Offsetting and merging -/

section Offset

variable {math : BoundedMath}

/-- Merging two optional bounds by `min` keeps exactly the constraints of both, for a predicate
that `min` distributes over. -/
private theorem forall_mem_mergeMin {P : Nat → Prop} (hP : ∀ a b, P (min a b) ↔ P a ∧ P b)
    (a b : Option Nat) :
    (∀ v ∈ (match a, b with
      | some a, some b => some (min a b)
      | a, b => a.or b), P v) ↔ (∀ v ∈ a, P v) ∧ ∀ v ∈ b, P v := by
  cases a <;> cases b <;> simp [hP]

/-- `offset_and_merge_min_overflow` read as an overflow bound: a base `y ≥ 0` overflows the
merged bound exactly when it overflows the earlier bound and, shifted by `prev_delta`, the later
one. -/
theorem offsetAndMergeMinOverflow_overflow {f p r : Option Nat} {d : SignedU128}
    (h : offsetAndMergeMinOverflow f d p math = .ok r) {y : Int} (hy : 0 ≤ y) :
    (∀ v ∈ r, (math.maxValue : Int) < y + v) ↔
      (∀ v ∈ p, (math.maxValue : Int) < y + v) ∧ ∀ o ∈ f, (math.maxValue : Int) < y + d.toInt + o := by
  delta offsetAndMergeMinOverflow at h
  obtain ⟨a, ha, hr⟩ := Except.bind_eq_ok.1 h
  rw [Except.pure_eq_ok, Except.ok.injEq] at hr
  subst hr
  rw [forall_mem_mergeMin (fun a b => by omega), and_comm]
  refine and_congr_right fun _ => ?_
  cases f with
  | none => simp only [Option.elim, Except.pure_eq_ok, Except.ok.injEq] at ha; subst ha; simp
  | some o =>
    simp only [Option.elim] at ha
    obtain ⟨h0, hnone, hsome⟩ := BoundedMath.okOverflow_unsignedAddDelta_eq_ok (Iff.mp Except.mapError_eq_ok ha)
    cases a with
    | none => simp only [Option.mem_def, reduceCtorEq, IsEmpty.forall_iff, implies_true,
        Option.some.injEq, forall_eq', true_iff]; have := hnone rfl; omega
    | some w => have := (hsome w rfl).1; simp only [Option.mem_def, Option.some.injEq, forall_eq']; omega

/-- `offset_and_merge_min_overflow` read as an underflow bound (it is called with the negated
delta): a base `y ≤ max_value` lies below the merged bound exactly when it lies below the earlier
bound and below the shifted later one. -/
theorem offsetAndMergeMinOverflow_underflow {f p r : Option Nat} {d : SignedU128}
    (h : offsetAndMergeMinOverflow f d p math = .ok r) {y : Int} (hy : y ≤ math.maxValue) :
    (∀ v ∈ r, y < v) ↔ (∀ v ∈ p, y < v) ∧ ∀ u ∈ f, y < u + d.toInt := by
  delta offsetAndMergeMinOverflow at h
  obtain ⟨a, ha, hr⟩ := Except.bind_eq_ok.1 h
  rw [Except.pure_eq_ok, Except.ok.injEq] at hr
  subst hr
  rw [forall_mem_mergeMin (fun a b => by omega), and_comm]
  refine and_congr_right fun _ => ?_
  cases f with
  | none => simp only [Option.elim, Except.pure_eq_ok, Except.ok.injEq] at ha; subst ha; simp
  | some o =>
    simp only [Option.elim] at ha
    obtain ⟨h0, hnone, hsome⟩ := BoundedMath.okOverflow_unsignedAddDelta_eq_ok (Iff.mp Except.mapError_eq_ok ha)
    cases a with
    | none => simp only [Option.mem_def, reduceCtorEq, IsEmpty.forall_iff, implies_true,
        Option.some.injEq, forall_eq', true_iff]; have := hnone rfl; omega
    | some w => have := (hsome w rfl).1; simp only [Option.mem_def, Option.some.injEq, forall_eq']; omega

theorem offsetAndMergeMinOverflow_eq_error {f p : Option Nat} {d : SignedU128}
    {e : DelayedFieldsSpeculativeError} (h : offsetAndMergeMinOverflow f d p math = .error e) :
    ∃ o ∈ f, (o : Int) + d.toInt < 0 := by
  delta offsetAndMergeMinOverflow at h
  rcases Except.bind_eq_error.1 h with h | ⟨a, -, h⟩
  · cases f with
    | none => simp [Option.elim] at h
    | some o =>
      simp only [Option.elim] at h
      obtain ⟨e₀, he₀, -⟩ := Iff.mp Except.mapError_eq_error h
      exact ⟨o, rfl, BoundedMath.okOverflow_unsignedAddDelta_eq_error he₀⟩
  · cases h

/-- The merged failure bound stays in range when both bounds were. -/
theorem offsetAndMergeMinOverflow_bounded {f p r : Option Nat} {d : SignedU128}
    (h : offsetAndMergeMinOverflow f d p math = .ok r) (hf : ∀ o ∈ f, o ≤ math.maxValue)
    (hp : ∀ v ∈ p, v ≤ math.maxValue) : ∀ v ∈ r, v ≤ math.maxValue := by
  delta offsetAndMergeMinOverflow at h
  obtain ⟨a, ha, hr⟩ := Except.bind_eq_ok.1 h
  rw [Except.pure_eq_ok, Except.ok.injEq] at hr
  subst hr
  have ha' : ∀ w ∈ a, w ≤ math.maxValue := by
    cases f with
    | none => simp only [Option.elim, Except.pure_eq_ok, Except.ok.injEq] at ha; subst ha; simp
    | some o =>
      simp only [Option.elim] at ha
      obtain ⟨-, -, hsome⟩ := BoundedMath.okOverflow_unsignedAddDelta_eq_ok (Iff.mp Except.mapError_eq_ok ha)
      exact fun w hw => (hsome w hw).2 (hf o rfl)
  intro v hv
  cases a with
  | none => exact hp v (by simpa using hv)
  | some w =>
    cases p with
    | none => exact ha' v (by simpa using hv)
    | some b =>
      simp only [Option.mem_def, Option.some.injEq] at hv
      have := ha' w rfl
      omega

/-- `offset_and_merge_max_achieved` takes the maximum of the earlier bound and the shifted later
one (a shifted bound below zero is dominated by the earlier one). -/
theorem offsetAndMergeMaxAchieved_eq_ok {a p r : Nat} {d : SignedU128}
    (h : offsetAndMergeMaxAchieved a d p math = .ok r) :
    (r : Int) = max (p : Int) (a + d.toInt) ∧ ∀ v, d = positive v → a + v ≤ math.maxValue := by
  delta offsetAndMergeMaxAchieved at h
  obtain ⟨w, hw, hr⟩ := Except.bind_eq_ok.1 h
  simp only [Except.pure_eq_ok, Except.ok.injEq] at hr
  subst hr
  have hw := Iff.mp Except.mapError_eq_ok hw
  cases d with
  | positive v =>
    cases hr : math.unsignedAdd a v with
    | ok t =>
      have := BoundedMath.unsignedAdd_eq_ok.1 hr
      simp only [BoundedMath.unsignedAddDelta_positive, hr, okUnderflow_ok, Except.ok.injEq] at hw
      subst hw
      simp only [Option.elim, toInt_positive, positive.injEq, forall_eq']
      omega
    | error e =>
      obtain ⟨-, rfl⟩ := BoundedMath.unsignedAdd_eq_error.1 hr
      simp [BoundedMath.unsignedAddDelta_positive, hr, okUnderflow_overflow] at hw
  | negative v =>
    cases hr : math.unsignedSubtract a v with
    | ok t =>
      have := BoundedMath.unsignedSubtract_eq_ok.1 hr
      simp only [BoundedMath.unsignedAddDelta_negative, hr, okUnderflow_ok, Except.ok.injEq] at hw
      subst hw
      simp only [Option.elim, toInt_negative, reduceCtorEq, IsEmpty.forall_iff, implies_true,
        and_true]
      omega
    | error e =>
      obtain ⟨h1, rfl⟩ := BoundedMath.unsignedSubtract_eq_error.1 hr
      simp only [BoundedMath.unsignedAddDelta_negative, hr, okUnderflow_underflow,
        Except.ok.injEq] at hw
      subst hw
      simp only [Option.elim, toInt_negative, reduceCtorEq, IsEmpty.forall_iff, implies_true,
        and_true]
      omega

theorem offsetAndMergeMaxAchieved_eq_error {a p : Nat} {d : SignedU128}
    {e : DelayedFieldsSpeculativeError} (h : offsetAndMergeMaxAchieved a d p math = .error e) :
    (math.maxValue : Int) < a + d.toInt := by
  delta offsetAndMergeMaxAchieved at h
  rcases Except.bind_eq_error.1 h with h | ⟨w, -, h⟩
  · obtain ⟨e₀, he₀, -⟩ := Iff.mp Except.mapError_eq_error h
    cases d with
    | positive v =>
      cases hr : math.unsignedAdd a v with
      | ok t => simp [BoundedMath.unsignedAddDelta_positive, hr, okUnderflow_ok] at he₀
      | error e =>
        have := (BoundedMath.unsignedAdd_eq_error.1 hr).1
        simp only [toInt_positive]; omega
    | negative v =>
      cases hr : math.unsignedSubtract a v with
      | ok t => simp [BoundedMath.unsignedAddDelta_negative, hr, okUnderflow_ok] at he₀
      | error e =>
        obtain ⟨-, rfl⟩ := BoundedMath.unsignedSubtract_eq_error.1 hr
        simp [BoundedMath.unsignedAddDelta_negative, hr, okUnderflow_underflow] at he₀
  · simp at h

end Offset

/-- `offset_and_merge_history` admits `x` exactly when the earlier history admits `x` and the
later history admits `x + prev_delta`. -/
theorem admits_offsetAndMergeHistory {hb ha h' : DeltaHistory} {d : SignedU128}
    (hm : hb.offsetAndMergeHistory d ha maxValue = .ok h') (x : Int) :
    h'.Admits maxValue x ↔ ha.Admits maxValue x ∧ hb.Admits maxValue (x + d.toInt) := by
  delta offsetAndMergeHistory at hm
  obtain ⟨O', hO, hm⟩ := Except.bind_eq_ok.1 hm
  obtain ⟨U', hU, hm⟩ := Except.bind_eq_ok.1 hm
  obtain ⟨A', hA, hm⟩ := Except.bind_eq_ok.1 hm
  obtain ⟨B', hB, hm⟩ := Except.bind_eq_ok.1 hm
  split_ifs at hm
  simp only [Except.pure_eq_ok, Except.ok.injEq] at hm
  subst hm
  have hA' := (offsetAndMergeMaxAchieved_eq_ok hA).1
  have hB' := (offsetAndMergeMaxAchieved_eq_ok hB).1
  simp only [toInt_minus] at hB'
  simp only [admits_iff]
  -- the achieved bounds pin `x` to `[0, max_value]`, where the failure lemmas apply
  constructor
  · rintro ⟨h1, h2, h3, h4⟩
    have hx0 : 0 ≤ x := by omega
    have hxm : x ≤ maxValue := by omega
    obtain ⟨h3a, h3b⟩ := (offsetAndMergeMinOverflow_overflow hO hx0).1 h3
    obtain ⟨h4a, h4b⟩ := (offsetAndMergeMinOverflow_underflow hU hxm).1 h4
    refine ⟨⟨by omega, by omega, h3a, h4a⟩, by omega, by omega, h3b, fun u hu => ?_⟩
    have := h4b u hu
    simp only [toInt_minus] at this
    omega
  · rintro ⟨⟨h1, h2, h3, h4⟩, h5, h6, h7, h8⟩
    have hx0 : 0 ≤ x := by omega
    have hxm : x ≤ maxValue := by omega
    refine ⟨by omega, by omega, (offsetAndMergeMinOverflow_overflow hO hx0).2 ⟨h3, h7⟩,
      (offsetAndMergeMinOverflow_underflow hU hxm).2 ⟨h4, fun u hu => ?_⟩⟩
    have := h8 u hu
    simp only [toInt_minus]
    omega

/-- When `offset_and_merge_history` fails, no base is admitted by the earlier history whose shift
is admitted by the later one. -/
theorem not_admits_of_offsetAndMergeHistory_eq_error {hb ha : DeltaHistory} {d : SignedU128}
    {e : DelayedFieldsSpeculativeError} (hm : hb.offsetAndMergeHistory d ha maxValue = .error e)
    (x : Int) : ¬ (ha.Admits maxValue x ∧ hb.Admits maxValue (x + d.toInt)) := by
  rintro ⟨⟨h1, h2, h3, h4⟩, h5, h6, h7, h8⟩
  have hx0 : 0 ≤ x := by omega
  have hxm : x ≤ maxValue := by omega
  delta offsetAndMergeHistory at hm
  -- each of the six ways to fail contradicts one of the bounds at `x`
  rcases Except.bind_eq_error.1 hm with hm | ⟨O', hO, hm⟩
  · obtain ⟨o, ho, hlt⟩ := offsetAndMergeMinOverflow_eq_error hm
    have := h7 o ho; omega
  rcases Except.bind_eq_error.1 hm with hm | ⟨U', hU, hm⟩
  · obtain ⟨u, hu, hlt⟩ := offsetAndMergeMinOverflow_eq_error hm
    have := h8 u hu; simp only [toInt_minus] at hlt; omega
  rcases Except.bind_eq_error.1 hm with hm | ⟨A', hA, hm⟩
  · have : (maxValue : Int) < hb.maxAchievedPositiveDelta + d.toInt :=
      offsetAndMergeMaxAchieved_eq_error hm
    omega
  rcases Except.bind_eq_error.1 hm with hm | ⟨B', hB, hm⟩
  · have : (maxValue : Int) < hb.minAchievedNegativeDelta + d.minus.toInt :=
      offsetAndMergeMaxAchieved_eq_error hm
    simp only [toInt_minus] at this
    omega
  have hA' := (offsetAndMergeMaxAchieved_eq_ok hA).1
  have hB' := (offsetAndMergeMaxAchieved_eq_ok hB).1
  simp only [toInt_minus] at hB'
  have hO' : ∀ v ∈ O', (maxValue : Int) < x + v :=
    (offsetAndMergeMinOverflow_overflow hO hx0).2 ⟨h3, h7⟩
  have hU' : ∀ v ∈ U', x < v := (offsetAndMergeMinOverflow_underflow hU hxm).2 ⟨h4, fun u hu => by
    have := h8 u hu; simp only [toInt_minus]; omega⟩
  split_ifs at hm with c1 c2
  · obtain ⟨v, hv, hle⟩ := (Option.any_eq_true _ _).1 c1
    have := hO' v hv
    simp only [decide_eq_true_eq] at hle
    omega
  · obtain ⟨v, hv, hle⟩ := (Option.any_eq_true _ _).1 c2
    have := hU' v hv
    simp only [decide_eq_true_eq] at hle
    omega
  · simp at hm

/-- The merged history keeps its failure bounds in range. -/
theorem FailuresBounded.offsetAndMergeHistory {hb ha h' : DeltaHistory} {d : SignedU128}
    (hbb : hb.FailuresBounded maxValue) (hab : ha.FailuresBounded maxValue)
    (hm : hb.offsetAndMergeHistory d ha maxValue = .ok h') : h'.FailuresBounded maxValue := by
  unfold DeltaHistory.offsetAndMergeHistory at hm
  obtain ⟨O', hO, hm⟩ := Except.bind_eq_ok.1 hm
  obtain ⟨U', hU, hm⟩ := Except.bind_eq_ok.1 hm
  obtain ⟨A', hA, hm⟩ := Except.bind_eq_ok.1 hm
  obtain ⟨B', hB, hm⟩ := Except.bind_eq_ok.1 hm
  split_ifs at hm
  simp only [Except.pure_eq_ok, Except.ok.injEq] at hm
  subst hm
  exact ⟨offsetAndMergeMinOverflow_bounded hO hbb.1 hab.1, offsetAndMergeMinOverflow_bounded hU hbb.2 hab.2⟩

/-- The merged history covers the sum of the two deltas, and `signed_add` of the two deltas
succeeds, when each history covered its own delta. -/
theorem covers_offsetAndMergeHistory {hb ha h' : DeltaHistory} {da db : SignedU128}
    (hca : ha.Covers da) (hcb : hb.Covers db)
    (hm : hb.offsetAndMergeHistory da ha maxValue = .ok h') :
    -(h'.minAchievedNegativeDelta : Int) ≤ da.toInt + db.toInt ∧
      da.toInt + db.toInt ≤ h'.maxAchievedPositiveDelta ∧
      ∃ r, (BoundedMath.mk maxValue).signedAdd da db = .ok r := by
  delta offsetAndMergeHistory at hm
  obtain ⟨O', hO, hm⟩ := Except.bind_eq_ok.1 hm
  obtain ⟨U', hU, hm⟩ := Except.bind_eq_ok.1 hm
  obtain ⟨A', hA, hm⟩ := Except.bind_eq_ok.1 hm
  obtain ⟨B', hB, hm⟩ := Except.bind_eq_ok.1 hm
  split_ifs at hm
  simp only [Except.pure_eq_ok, Except.ok.injEq] at hm
  subst hm
  obtain ⟨hA', hA''⟩ := offsetAndMergeMaxAchieved_eq_ok hA
  obtain ⟨hB', hB''⟩ := offsetAndMergeMaxAchieved_eq_ok hB
  simp only [toInt_minus] at hB'
  obtain ⟨h1, h2⟩ := hca
  obtain ⟨h3, h4⟩ := hcb
  refine ⟨by simp only; omega, by simp only; omega, BoundedMath.signedAdd_isOk ?_ ?_⟩
  -- a sum of two deltas of one sign is bounded by the offset achieved bound of that sign
  · rintro v rfl
    have : hb.maxAchievedPositiveDelta + v ≤ maxValue := hA'' v rfl
    simp only [toInt_positive] at *
    omega
  · rintro v rfl
    have : hb.minAchievedNegativeDelta + v ≤ maxValue := hB'' v rfl
    simp only [toInt_negative] at *
    omega

end DeltaHistory

/-- `merge_data_and_delta`: validate the history against the value, then apply the delta, which
the validation is meant to make infallible. -/
def mergeDataAndDelta (prevValue : Nat) (delta : SignedU128) (history : DeltaHistory)
    (maxValue : Nat) : Except (PanicOr DelayedFieldsSpeculativeError) Nat := do
  (history.validateAgainstBaseValue prevValue maxValue).mapError PanicOr.or
  (expectOk ((BoundedMath.mk maxValue).unsignedAddDelta prevValue delta)).mapError
    PanicOr.ofPanicError

/-- `merge_two_deltas`: offset and merge the histories, then add the deltas, which the merged
history is meant to make infallible. -/
def mergeTwoDeltas (prevDelta : SignedU128) (prevHistory : DeltaHistory) (nextDelta : SignedU128)
    (nextHistory : DeltaHistory) (maxValue : Nat) :
    Except (PanicOr DelayedFieldsSpeculativeError) (SignedU128 × DeltaHistory) := do
  let newHistory ← (nextHistory.offsetAndMergeHistory prevDelta prevHistory maxValue).mapError
    PanicOr.or
  let newDelta ← (expectOk ((BoundedMath.mk maxValue).signedAdd prevDelta nextDelta)).mapError
    PanicOr.ofPanicError
  pure (newDelta, newHistory)

section Merge

variable {maxValue : Nat} {h : DeltaHistory} {delta : SignedU128}

/-- On a covered delta with bounded failures, `merge_data_and_delta` succeeds exactly on the
admitted values and returns the shifted value. -/
theorem mergeDataAndDelta_eq_ok {x z : Nat} (hc : h.Covers delta)
    (hb : h.FailuresBounded maxValue) :
    mergeDataAndDelta x delta h maxValue = .ok z ↔
      h.Admits maxValue x ∧ (z : Int) = x + delta.toInt := by
  unfold mergeDataAndDelta
  cases hv : h.validateAgainstBaseValue x maxValue with
  | error e =>
    have : ¬ h.Admits maxValue x := fun hx => by
      rw [← DeltaHistory.validateAgainstBaseValue_eq_ok hb, hv] at hx; cases hx
    simp [this]
  | ok u =>
    have hx : h.Admits maxValue x := (DeltaHistory.validateAgainstBaseValue_eq_ok hb).1 hv
    obtain ⟨h0, h1⟩ := hx.add_covers hc
    have hxm : x ≤ maxValue := by have := hx.range; omega
    simp only [Except.mapError_ok, Except.ok_bind, Except.mapError_eq_ok, expectOk_eq_ok,
      BoundedMath.unsignedAddDelta_eq_ok hxm]
    exact ⟨fun ⟨_, _, hz⟩ => ⟨hx, hz⟩, fun ⟨_, hz⟩ => ⟨h0, h1, hz⟩⟩

/-- `merge_data_and_delta` on a covered delta with bounded failures never returns a
code-invariant error: it fails exactly on the values the history does not admit. -/
theorem mergeDataAndDelta_eq_error {x : Nat} {e : PanicOr DelayedFieldsSpeculativeError}
    (hc : h.Covers delta) (hb : h.FailuresBounded maxValue)
    (he : mergeDataAndDelta x delta h maxValue = .error e) :
    (∃ e₀, e = .or e₀) ∧ ¬ h.Admits maxValue x := by
  unfold mergeDataAndDelta at he
  cases hv : h.validateAgainstBaseValue x maxValue with
  | error e₀ =>
    simp only [hv, Except.mapError_error, Except.error_bind, Except.error.injEq] at he
    refine ⟨⟨e₀, he.symm⟩, fun hx => ?_⟩
    rw [← DeltaHistory.validateAgainstBaseValue_eq_ok hb, hv] at hx; cases hx
  | ok u =>
    have hx : h.Admits maxValue x := (DeltaHistory.validateAgainstBaseValue_eq_ok hb).1 hv
    obtain ⟨h0, h1⟩ := hx.add_covers hc
    have hxm : x ≤ maxValue := by have := hx.range; omega
    have hr : (BoundedMath.mk maxValue).unsignedAddDelta x delta =
        .ok ((x : Int) + delta.toInt).toNat :=
      (BoundedMath.unsignedAddDelta_eq_ok hxm).2 ⟨h0, h1, by omega⟩
    simp [hv, hr, expectOk_ok] at he

/-- The outcomes of `merge_two_deltas` on covered deltas: either both the history merge and the
addition succeed, or the history merge fails with its (non-panic) error. -/
theorem mergeTwoDeltas_cases {da db : SignedU128} {ha hb : DeltaHistory} (hca : ha.Covers da)
    (hcb : hb.Covers db) :
    (∃ h', hb.offsetAndMergeHistory da ha maxValue = .ok h' ∧ ∃ s,
        (BoundedMath.mk maxValue).signedAdd da db = .ok s ∧
        mergeTwoDeltas da ha db hb maxValue = .ok (s, h')) ∨
      ∃ e, hb.offsetAndMergeHistory da ha maxValue = .error e ∧
        mergeTwoDeltas da ha db hb maxValue = .error (.or e) := by
  unfold mergeTwoDeltas
  cases hm : hb.offsetAndMergeHistory da ha maxValue with
  | error e => exact .inr ⟨e, rfl, by simp⟩
  | ok h' =>
    obtain ⟨-, -, s, hs⟩ := DeltaHistory.covers_offsetAndMergeHistory hca hcb hm
    exact .inl ⟨h', rfl, s, hs, by simp [hs, expectOk_ok]⟩

end Merge


end CreditChain
