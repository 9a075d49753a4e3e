import CreditChain.Aggregator.DelayedFieldExtension

/-!
# History-bounded `try_add` outcomes

The block executor's resolver for `try_add`/`try_sub` on an aggregator (`view.rs`): the first
request of a transaction reads a predicted base value `v0` and records the outcome in a fresh
`DeltaHistory`; later requests compute their outcome on `v0` shifted by the accumulated delta and
record it in the history, offset by that delta.

The history stands for the set of bases on which the transaction's requests would have had the
same outcomes.  `tryAddRun_validate_iff_replay` says so for every sequence of requests: the final
history validates a base exactly when replaying the requests directly on it gives the recorded
outcomes, and then the accumulated delta takes the base to the value the replay ends at.  The
argument is one step lemma (`tryAddDelta_step`) about what a request does to the history, the
accumulated delta and the run invariant `RunInv`, and an induction over the requests.
-/

namespace CreditChain

open SignedU128

/-- `DelayedFieldRead`, for the two kinds `try_add_delta_outcome` consults: the exact value of an
aggregator, and a history-bounded read. -/
inductive DelayedFieldRead
  | value (value : Nat)
  | historyBounded (restriction : DeltaHistory) (maxValue innerAggregatorValue : Nat)
  deriving DecidableEq, Repr

/-- `compute_delayed_field_try_add_delta_outcome_from_history`. -/
def computeDelayedFieldTryAddDeltaOutcomeFromHistory (baseDelta delta : SignedU128)
    (maxValue : Nat) (history : DeltaHistory) (baseAggregatorValue : Nat) :
    Except (PanicOr DelayedFieldsSpeculativeError) (Bool × DelayedFieldRead) := do
  let math : BoundedMath := ⟨maxValue⟩
  let beforeValue ← (expectOk (math.unsignedAddDelta baseAggregatorValue baseDelta)).mapError
    PanicOr.ofPanicError
  let (result, history) ← match math.unsignedAddDelta beforeValue delta with
    | .error _ =>
      match delta with
      | positive deltaValue => do
        let overflowDelta ← (expectOk (okOverflow (math.unsignedAddDelta deltaValue baseDelta))).mapError
          PanicOr.ofPanicError
        -- an offset delta beyond `max_value` is not recorded
        pure (false, overflowDelta.elim history history.recordOverflow)
      | negative deltaValue => do
        let underflowDelta ← (expectOk (okOverflow
          (math.unsignedAddDelta deltaValue baseDelta.minus))).mapError PanicOr.ofPanicError
        pure (false, underflowDelta.elim history history.recordUnderflow)
    | .ok _ => do
      let newDelta ← (expectOk (math.signedAdd baseDelta delta)).mapError PanicOr.ofPanicError
      pure (true, history.recordSuccess newDelta)
  pure (result, .historyBounded history maxValue baseAggregatorValue)

/-- `compute_delayed_field_try_add_delta_outcome_first_time`. -/
def computeDelayedFieldTryAddDeltaOutcomeFirstTime (delta : SignedU128)
    (maxValue baseAggregatorValue : Nat) :
    Except (PanicOr DelayedFieldsSpeculativeError) (Bool × DelayedFieldRead) :=
  let math : BoundedMath := ⟨maxValue⟩
  let history := DeltaHistory.new
  let (result, history) := match math.unsignedAddDelta baseAggregatorValue delta with
    | .error _ =>
      (false, match delta with
        | positive deltaValue => history.recordOverflow deltaValue
        | negative deltaValue => history.recordUnderflow deltaValue)
    | .ok _ => (true, history.recordSuccess delta)
  .ok (result, .historyBounded history maxValue baseAggregatorValue)

/-- `delayed_field_try_add_delta_outcome_impl` for one field, with the transaction's captured read
of the field as state; `predictedValue` is what `read_latest_predicted_value` returns. -/
def delayedFieldTryAddDeltaOutcomeImpl (predictedValue : Nat) :
    TryAddDeltaOutcome (Option DelayedFieldRead) := fun capturedRead baseDelta delta maxValue =>
  -- no need to record or check or try if the input exceeds the bound
  if delta.abs > maxValue then .ok (false, capturedRead)
  else match capturedRead with
    | some (.value value) => do
      let math : BoundedMath := ⟨maxValue⟩
      let before ← (expectOk (math.unsignedAddDelta value baseDelta)).mapError PanicOr.ofPanicError
      pure ((math.unsignedAddDelta before delta).toBool, capturedRead)
    | some (.historyBounded history beforeMaxValue innerAggregatorValue) =>
      if beforeMaxValue ≠ maxValue then
        .error (.ofPanicError (codeInvariantError "Cannot merge deltas with different limits"))
      else do
        let (result, read) ← computeDelayedFieldTryAddDeltaOutcomeFromHistory baseDelta delta
          maxValue history innerAggregatorValue
        pure (result, some read)
    | none =>
      if !baseDelta.isZero then
        .error (.ofPanicError (codeInvariantError
          "Passed-in delta is not zero, but CapturedReads has no record"))
      else do
        let (result, read) ← computeDelayedFieldTryAddDeltaOutcomeFirstTime delta maxValue
          predictedValue
        pure (result, some read)

/-- A transaction's `try_add`/`try_sub` requests on one aggregator, resolved by the block executor
with predicted base value `v0`: the outcomes, the final change and the final captured read. -/
def tryAddRun (maxValue v0 : Nat) :
    List SignedU128 → Option DeltaWithMax → Option DelayedFieldRead →
      Except (PanicOr DelayedFieldsSpeculativeError)
        (List Bool × Option DeltaWithMax × Option DelayedFieldRead)
  | [], change, read => .ok ([], change, read)
  | d :: ds, change, read => do
    let (result, change, read) ← tryAddDelta (delayedFieldTryAddDeltaOutcomeImpl v0) change read
      maxValue d
    let (results, change, read) ← tryAddRun maxValue v0 ds change read
    pure (result :: results, change, read)

theorem tryAddRun_cons (maxValue v0 : Nat) (d : SignedU128) (ds : List SignedU128)
    (change : Option DeltaWithMax) (read : Option DelayedFieldRead) :
    tryAddRun maxValue v0 (d :: ds) change read = (do
      let (result, change, read) ← tryAddDelta (delayedFieldTryAddDeltaOutcomeImpl v0) change read
        maxValue d
      let (results, change, read) ← tryAddRun maxValue v0 ds change read
      pure (result :: results, change, read)) := rfl

/-- The history a captured read restricts the base value by (the empty history before the first
request). -/
def capturedHistory : Option DelayedFieldRead → DeltaHistory
  | some (.historyBounded restriction _ _) => restriction
  | _ => DeltaHistory.new

theorem capturedHistory_none : capturedHistory none = DeltaHistory.new := rfl

theorem capturedHistory_historyBounded (restriction : DeltaHistory) (maxValue v : Nat) :
    capturedHistory (some (.historyBounded restriction maxValue v)) = restriction := rfl

/-- `H'` is what a history `H` becomes when a request `d` on top of the accumulated delta `D` has
outcome `b`: its failure bounds stay in range, it covers the new accumulated delta, and it admits
the bases `H` admits on which the request has the same outcome. -/
structure RecordsOutcome (maxValue : Nat) (H : DeltaHistory) (D d : Int) (b : Bool)
    (H' : DeltaHistory) : Prop where
  bounded : H'.FailuresBounded maxValue
  covers : ∀ s : SignedU128, s.toInt = D + (if b then d else 0) → H'.Covers s
  admits : ∀ x : Int, H'.Admits maxValue x ↔
    H.Admits maxValue x ∧ ((0 ≤ x + D + d ∧ x + D + d ≤ maxValue) ↔ b = true)

/-! ### One request on a history-bounded read -/

section Outcome

variable {maxValue v0 : Nat} {H : DeltaHistory} {D d : SignedU128}

/-- On an admitted predicted value, a history-bounded request succeeds exactly when `v0` shifted by
the accumulated delta and the request stays in range, and then records the new accumulated delta
as achieved. -/
theorem computeFromHistory_of_inRange (hc : H.Covers D) (h0 : H.Admits maxValue v0)
    (hs : 0 ≤ (v0 : Int) + D.toInt + d.toInt ∧ (v0 : Int) + D.toInt + d.toInt ≤ maxValue) :
    ∃ s : SignedU128, s.toInt = D.toInt + d.toInt ∧
      computeDelayedFieldTryAddDeltaOutcomeFromHistory D d maxValue H v0 =
        .ok (true, .historyBounded (H.recordSuccess s) maxValue v0) := by
  have hv0 := h0.range
  have hx := h0.add_covers hc
  have hbefore : (BoundedMath.mk maxValue).unsignedAddDelta v0 D =
      .ok ((v0 : Int) + D.toInt).toNat :=
    (BoundedMath.unsignedAddDelta_eq_ok (by simp only; omega)).2 ⟨by omega, by simp only; omega, by omega⟩
  have hafter : (BoundedMath.mk maxValue).unsignedAddDelta ((v0 : Int) + D.toInt).toNat d =
      .ok ((v0 : Int) + D.toInt + d.toInt).toNat :=
    (BoundedMath.unsignedAddDelta_eq_ok (by simp only; omega)).2 ⟨by omega, by simp only; omega, by omega⟩
  -- the sum of the two deltas stays within `[-max_value, max_value]`, where `signed_add` succeeds
  obtain ⟨s, hsum⟩ : ∃ s, (BoundedMath.mk maxValue).signedAdd D d = .ok s :=
    BoundedMath.signedAdd_isOk (fun _ _ => by simp only; omega) (fun _ _ => by simp only; omega)
  refine ⟨s, BoundedMath.signedAdd_toInt hsum, ?_⟩
  -- step through the body: the value before the request, the value after it, the new delta
  delta computeDelayedFieldTryAddDeltaOutcomeFromHistory
  dsimp only
  rw [hbefore, expectOk_ok, Except.mapError_ok, Except.ok_bind, hafter, hsum]
  rfl

/-- A history-bounded request that leaves the range fails, and records the request, shifted by
the accumulated delta, as an overflow or an underflow bound (or nothing, when the shifted bound
lies beyond the range): the new history admits exactly the admitted bases on which the request
fails as well. -/
theorem computeFromHistory_of_not_inRange (hb : H.FailuresBounded maxValue) (hc : H.Covers D)
    (h0 : H.Admits maxValue v0) (hd : d.abs ≤ maxValue)
    (hs : ¬ (0 ≤ (v0 : Int) + D.toInt + d.toInt ∧ (v0 : Int) + D.toInt + d.toInt ≤ maxValue)) :
    ∃ H' : DeltaHistory,
      computeDelayedFieldTryAddDeltaOutcomeFromHistory D d maxValue H v0 =
        .ok (false, .historyBounded H' maxValue v0) ∧
      H'.FailuresBounded maxValue ∧ (∀ s, H'.Covers s ↔ H.Covers s) ∧
      ∀ x : Int, H'.Admits maxValue x ↔
        H.Admits maxValue x ∧ ¬ (0 ≤ x + D.toInt + d.toInt ∧ x + D.toInt + d.toInt ≤ maxValue) := by
  have hv0 := h0.range
  have hx := h0.add_covers hc
  have hbefore : (BoundedMath.mk maxValue).unsignedAddDelta v0 D =
      .ok ((v0 : Int) + D.toInt).toNat :=
    (BoundedMath.unsignedAddDelta_eq_ok (by simp only; omega)).2 ⟨by omega, by simp only; omega, by omega⟩
  obtain ⟨e, hafter⟩ : ∃ e,
      (BoundedMath.mk maxValue).unsignedAddDelta ((v0 : Int) + D.toInt).toNat d = .error e := by
    cases hr : (BoundedMath.mk maxValue).unsignedAddDelta ((v0 : Int) + D.toInt).toNat d with
    | ok r =>
      have := (BoundedMath.unsignedAddDelta_eq_ok (by simp only; omega)).1 hr
      simp only at this; omega
    | error e => exact ⟨e, rfl⟩
  cases d with
  | positive v =>
    -- an overflow: the request, shifted by the accumulated delta, is a nonnegative bound
    simp only [toInt_positive, abs_positive] at hs hd ⊢
    cases ho : okOverflow ((BoundedMath.mk maxValue).unsignedAddDelta v D) with
    | error e' =>
      have := BoundedMath.okOverflow_unsignedAddDelta_eq_error ho
      omega
    | ok a =>
      obtain ⟨-, hnone, hsome⟩ := BoundedMath.okOverflow_unsignedAddDelta_eq_ok ho
      have hrun : computeDelayedFieldTryAddDeltaOutcomeFromHistory D (positive v) maxValue H v0 =
          .ok (false, .historyBounded (a.elim H H.recordOverflow) maxValue v0) := by
        delta computeDelayedFieldTryAddDeltaOutcomeFromHistory
        dsimp only
        rw [hbefore, expectOk_ok, Except.mapError_ok, Except.ok_bind, hafter, ho]
        rfl
      cases a with
      | none =>
        have hbig := hnone rfl
        refine ⟨H, hrun, hb, fun _ => Iff.rfl, fun x => ⟨fun hx' => ⟨hx', ?_⟩, And.left⟩⟩
        have := hx'.range
        simp only at hbig; omega
      | some w =>
        obtain ⟨hw, hwm⟩ := hsome w rfl
        refine ⟨H.recordOverflow w, hrun, hb.recordOverflow (hwm hd), fun _ => DeltaHistory.covers_recordOverflow w,
          fun x => ?_⟩
        rw [DeltaHistory.admits_recordOverflow]
        refine and_congr_right fun hx' => ?_
        have := hx'.add_covers hc
        omega
  | negative v =>
    -- an underflow: the request, shifted back by the accumulated delta, is a nonnegative bound
    simp only [toInt_negative, abs_negative] at hs hd ⊢
    cases ho : okOverflow ((BoundedMath.mk maxValue).unsignedAddDelta v D.minus) with
    | error e' =>
      have := BoundedMath.okOverflow_unsignedAddDelta_eq_error ho
      simp only [toInt_minus] at this; omega
    | ok a =>
      obtain ⟨-, hnone, hsome⟩ := BoundedMath.okOverflow_unsignedAddDelta_eq_ok ho
      have hrun : computeDelayedFieldTryAddDeltaOutcomeFromHistory D (negative v) maxValue H v0 =
          .ok (false, .historyBounded (a.elim H H.recordUnderflow) maxValue v0) := by
        delta computeDelayedFieldTryAddDeltaOutcomeFromHistory
        dsimp only
        rw [hbefore, expectOk_ok, Except.mapError_ok, Except.ok_bind, hafter, ho]
        rfl
      cases a with
      | none =>
        have hbig := hnone rfl
        refine ⟨H, hrun, hb, fun _ => Iff.rfl, fun x => ⟨fun hx' => ⟨hx', ?_⟩, And.left⟩⟩
        have := hx'.range
        simp only [toInt_minus] at hbig; omega
      | some w =>
        obtain ⟨hw, hwm⟩ := hsome w rfl
        refine ⟨H.recordUnderflow w, hrun, hb.recordUnderflow (hwm hd), fun _ => DeltaHistory.covers_recordUnderflow w,
          fun x => ?_⟩
        rw [DeltaHistory.admits_recordUnderflow]
        refine and_congr_right fun hx' => ?_
        have := hx'.add_covers hc
        simp only [toInt_minus] at hw; omega

/-- A history-bounded request records its outcome. -/
theorem computeFromHistory_records (hb : H.FailuresBounded maxValue) (hc : H.Covers D)
    (h0 : H.Admits maxValue v0) (hd : d.abs ≤ maxValue) :
    ∃ H' : DeltaHistory,
      computeDelayedFieldTryAddDeltaOutcomeFromHistory D d maxValue H v0 =
        .ok (decide (0 ≤ (v0 : Int) + D.toInt + d.toInt ∧ (v0 : Int) + D.toInt + d.toInt ≤ maxValue),
          .historyBounded H' maxValue v0) ∧
      RecordsOutcome maxValue H D.toInt d.toInt
        (decide (0 ≤ (v0 : Int) + D.toInt + d.toInt ∧ (v0 : Int) + D.toInt + d.toInt ≤ maxValue)) H' := by
  by_cases hs : 0 ≤ (v0 : Int) + D.toInt + d.toInt ∧ (v0 : Int) + D.toInt + d.toInt ≤ maxValue
  · obtain ⟨s, hsum, hrun⟩ := computeFromHistory_of_inRange hc h0 hs
    rw [decide_eq_true hs]
    refine ⟨H.recordSuccess s, hrun, hb.recordSuccess s, fun s' hs' => ?_, fun x => ?_⟩
    · exact (DeltaHistory.covers_recordSuccess s).of_toInt_eq (by simp only [if_true] at hs'; omega)
    · rw [DeltaHistory.admits_recordSuccess, hsum]
      simp only [iff_true]
      exact and_congr_right fun _ => by omega
  · obtain ⟨H', hrun, hb', hc', hadm⟩ := computeFromHistory_of_not_inRange hb hc h0 hd hs
    rw [decide_eq_false hs]
    refine ⟨H', hrun, hb', fun s' hs' => (hc' s').2 (hc.of_toInt_eq (by simpa using hs')), fun x => ?_⟩
    rw [hadm]
    simp

end Outcome

/-! ### The first request -/

/-- The first request of a transaction on the predicted value records its outcome in a fresh
history. -/
theorem computeFirstTime_records {maxValue v0 : Nat} {d : SignedU128} (hv0 : v0 ≤ maxValue)
    (hd : d.abs ≤ maxValue) :
    ∃ H' : DeltaHistory,
      computeDelayedFieldTryAddDeltaOutcomeFirstTime d maxValue v0 =
        .ok (decide (0 ≤ (v0 : Int) + d.toInt ∧ (v0 : Int) + d.toInt ≤ maxValue),
          .historyBounded H' maxValue v0) ∧
      RecordsOutcome maxValue DeltaHistory.new 0 d.toInt
        (decide (0 ≤ (v0 : Int) + d.toInt ∧ (v0 : Int) + d.toInt ≤ maxValue)) H' := by
  cases hr : (BoundedMath.mk maxValue).unsignedAddDelta v0 d with
  | ok r =>
    obtain ⟨h1, h2, -⟩ := (BoundedMath.unsignedAddDelta_eq_ok hv0).1 hr
    rw [decide_eq_true ⟨h1, h2⟩]
    refine ⟨DeltaHistory.new.recordSuccess d,
      by unfold computeDelayedFieldTryAddDeltaOutcomeFirstTime; dsimp only; rw [hr],
      DeltaHistory.failuresBounded_new.recordSuccess d, fun s hs => ?_, fun x => ?_⟩
    · exact (DeltaHistory.covers_recordSuccess d).of_toInt_eq (by simp only [if_true] at hs; omega)
    · rw [DeltaHistory.admits_recordSuccess, DeltaHistory.admits_new_iff]
      simp only [iff_true]
      omega
  | error e =>
    have hs := (BoundedMath.unsignedAddDelta_eq_error hv0).1 hr
    have hn : ¬ (0 ≤ (v0 : Int) + d.toInt ∧ (v0 : Int) + d.toInt ≤ maxValue) := by
      simp only at hs; omega
    rw [decide_eq_false hn]
    -- the failure is recorded as the request itself, an overflow or an underflow bound
    cases d with
    | positive v =>
      refine ⟨DeltaHistory.new.recordOverflow v,
        by unfold computeDelayedFieldTryAddDeltaOutcomeFirstTime; dsimp only; rw [hr],
        DeltaHistory.failuresBounded_new.recordOverflow hd, fun s hs => ?_, fun x => ?_⟩
      · rw [DeltaHistory.covers_recordOverflow, DeltaHistory.covers_new_iff]
        simp at hs; omega
      · rw [DeltaHistory.admits_recordOverflow, DeltaHistory.admits_new_iff]
        simp only [toInt_positive, Bool.false_eq_true, iff_false] at hn ⊢
        omega
    | negative v =>
      refine ⟨DeltaHistory.new.recordUnderflow v,
        by unfold computeDelayedFieldTryAddDeltaOutcomeFirstTime; dsimp only; rw [hr],
        DeltaHistory.failuresBounded_new.recordUnderflow hd, fun s hs => ?_, fun x => ?_⟩
      · rw [DeltaHistory.covers_recordUnderflow, DeltaHistory.covers_new_iff]
        simp at hs; omega
      · rw [DeltaHistory.admits_recordUnderflow, DeltaHistory.admits_new_iff]
        simp only [toInt_negative, Bool.false_eq_true, iff_false] at hn ⊢
        omega

/-! ### The resolver -/

/-- The captured read of the field during the transaction: nothing before the first request
reaches the resolver, a history-bounded read of the predicted value `v0` afterwards. -/
def ReadBounded (maxValue v0 : Nat) : Option DelayedFieldRead → Prop
  | none => True
  | some (.value _) => False
  | some (.historyBounded _ m v) => m = maxValue ∧ v = v0

/-- The resolver records the outcome of a request in range, the first one in a fresh history. -/
theorem delayedFieldTryAddDeltaOutcomeImpl_records {maxValue v0 : Nat}
    {read : Option DelayedFieldRead} {D d : SignedU128} (hread : ReadBounded maxValue v0 read)
    (hfresh : read = none → D.toInt = 0) (hb : (capturedHistory read).FailuresBounded maxValue)
    (hc : (capturedHistory read).Covers D) (h0 : (capturedHistory read).Admits maxValue v0)
    (hd : d.abs ≤ maxValue) :
    ∃ H' : DeltaHistory,
      delayedFieldTryAddDeltaOutcomeImpl v0 read D d maxValue =
        .ok (decide (0 ≤ (v0 : Int) + D.toInt + d.toInt ∧ (v0 : Int) + D.toInt + d.toInt ≤ maxValue),
          some (.historyBounded H' maxValue v0)) ∧
      RecordsOutcome maxValue (capturedHistory read) D.toInt d.toInt
        (decide (0 ≤ (v0 : Int) + D.toInt + d.toInt ∧ (v0 : Int) + D.toInt + d.toInt ≤ maxValue)) H' := by
  have hguard : ¬ d.abs > maxValue := by omega
  cases read with
  | none =>
    -- the first request: the accumulated delta is still zero, and `v0` is in range
    have hD := hfresh rfl
    have hv0 : v0 ≤ maxValue := by
      have := DeltaHistory.admits_new_iff.1 h0
      omega
    obtain ⟨H', hrun, hrec⟩ := computeFirstTime_records hv0 hd
    have hsum : (v0 : Int) + D.toInt + d.toInt = v0 + d.toInt := by omega
    have hz : D.isZero = true := (isZero_iff D).2 hD
    refine ⟨H', ?_, ?_⟩
    · unfold delayedFieldTryAddDeltaOutcomeImpl
      simp [hguard, hz, hrun, hsum]
    · rw [hsum, hD]
      exact hrec
  | some r =>
    cases r with
    | value v => exact hread.elim
    | historyBounded H m v =>
      obtain ⟨rfl, rfl⟩ := hread
      simp only [capturedHistory_historyBounded] at hb hc h0 ⊢
      obtain ⟨H', hrun, hrec⟩ := computeFromHistory_records hb hc h0 hd
      refine ⟨H', ?_, hrec⟩
      unfold delayedFieldTryAddDeltaOutcomeImpl
      simp [hguard, hrun]

/-! ### Runs of requests -/

/-- What holds of the field's change and captured read after any requests of a transaction with
predicted value `v0`. -/
structure RunInv (maxValue v0 : Nat) (change : Option DeltaWithMax)
    (read : Option DelayedFieldRead) : Prop where
  readBounded : ReadBounded maxValue v0 read
  fresh : read = none → change = none
  changeMax : ∀ c ∈ change, c.maxValue = maxValue
  bounded : (capturedHistory read).FailuresBounded maxValue
  covers : (capturedHistory read).Covers (accumulatedDelta change)
  admits : (capturedHistory read).Admits maxValue v0

theorem runInv_init {maxValue v0 : Nat} (hv0 : v0 ≤ maxValue) : RunInv maxValue v0 none none where
  readBounded := trivial
  fresh _ := rfl
  changeMax := by simp
  bounded := DeltaHistory.failuresBounded_new
  covers := by
    rw [capturedHistory_none, accumulatedDelta_none, DeltaHistory.covers_new_iff]
    rfl
  admits := DeltaHistory.admits_new_iff.2 ⟨by omega, by omega⟩

section Run

variable {maxValue v0 : Nat} {change : Option DeltaWithMax} {read : Option DelayedFieldRead}

/-- A request beyond the bound is answered `false` without a change or a read. -/
private theorem tryAddDelta_step_guard (hinv : RunInv maxValue v0 change read) {d : SignedU128}
    (hg : d.abs > maxValue) :
    tryAddDelta (delayedFieldTryAddDeltaOutcomeImpl v0) change read maxValue d =
        .ok (false, change, read) ∧
      ¬ (0 ≤ (v0 : Int) + (accumulatedDelta change).toInt + d.toInt ∧
        (v0 : Int) + (accumulatedDelta change).toInt + d.toInt ≤ maxValue) ∧
      ∀ x : Int, (capturedHistory read).Admits maxValue x →
        ¬ (0 ≤ x + (accumulatedDelta change).toInt + d.toInt ∧
          x + (accumulatedDelta change).toInt + d.toInt ≤ maxValue) := by
  have habs := natAbs_toInt d
  have hout : ∀ x : Int, (capturedHistory read).Admits maxValue x →
      ¬ (0 ≤ x + (accumulatedDelta change).toInt + d.toInt ∧
        x + (accumulatedDelta change).toInt + d.toInt ≤ maxValue) := by
    intro x hx
    have := hx.add_covers hinv.covers
    omega
  exact ⟨by delta tryAddDelta tryAddOrCheckDelta; simp [hg], hout v0 hinv.admits, hout⟩

/-- A run invariant for a history-bounded read of `v0`. -/
private theorem runInv_historyBounded {change : Option DeltaWithMax} {H : DeltaHistory}
    (hmax : ∀ c ∈ change, c.maxValue = maxValue) (hb : H.FailuresBounded maxValue)
    (hc : H.Covers (accumulatedDelta change)) (h0 : H.Admits maxValue v0) :
    RunInv maxValue v0 change (some (.historyBounded H maxValue v0)) :=
  ⟨⟨rfl, rfl⟩, by simp, hmax, hb, hc, h0⟩

/-- One `try_add_delta` on the field: its outcome is whether the predicted value, moved by the
accumulated delta and the request, stays in range; the run invariant is kept, the accumulated delta
moves by the request on success, and the history keeps the bases on which the request has the same
outcome. -/
theorem tryAddDelta_step (hinv : RunInv maxValue v0 change read) (d : SignedU128) :
    ∃ b change' read',
      tryAddDelta (delayedFieldTryAddDeltaOutcomeImpl v0) change read maxValue d =
        .ok (b, change', read') ∧
      ((0 ≤ (v0 : Int) + (accumulatedDelta change).toInt + d.toInt ∧
        (v0 : Int) + (accumulatedDelta change).toInt + d.toInt ≤ maxValue) ↔ b = true) ∧
      RunInv maxValue v0 change' read' ∧
      (accumulatedDelta change').toInt =
        (accumulatedDelta change).toInt + (if b then d.toInt else 0) ∧
      ∀ x : Int, (capturedHistory read').Admits maxValue x ↔
        (capturedHistory read).Admits maxValue x ∧
          ((0 ≤ x + (accumulatedDelta change).toInt + d.toInt ∧
            x + (accumulatedDelta change).toInt + d.toInt ≤ maxValue) ↔ b = true) := by
  by_cases hg : d.abs > maxValue
  · obtain ⟨hrun, hv0, hout⟩ := tryAddDelta_step_guard hinv hg
    refine ⟨false, change, read, hrun, by simpa using hv0, hinv, by simp, fun x => ?_⟩
    exact ⟨fun hx => ⟨hx, by simpa using hout x hx⟩, And.left⟩
  have hd : d.abs ≤ maxValue := by omega
  -- past the guard, the resolver records the outcome `b` in a history `H'`, and the change moves
  -- by the request when `b` holds
  suffices h : ∃ b H' change',
      tryAddDelta (delayedFieldTryAddDeltaOutcomeImpl v0) change read maxValue d =
        .ok (b, change', some (.historyBounded H' maxValue v0)) ∧
      ((0 ≤ (v0 : Int) + (accumulatedDelta change).toInt + d.toInt ∧
        (v0 : Int) + (accumulatedDelta change).toInt + d.toInt ≤ maxValue) ↔ b = true) ∧
      RecordsOutcome maxValue (capturedHistory read) (accumulatedDelta change).toInt d.toInt b H' ∧
      (∀ c ∈ change', c.maxValue = maxValue) ∧
      (accumulatedDelta change').toInt = (accumulatedDelta change).toInt + (if b then d.toInt else 0) by
    obtain ⟨b, H', change', hrun, hb, hrec, hmax, hacc⟩ := h
    exact ⟨b, change', _, hrun, hb,
      runInv_historyBounded hmax hrec.bounded (hrec.covers _ hacc)
        ((hrec.admits v0).2 ⟨hinv.admits, hb⟩),
      hacc, hrec.admits⟩
  obtain ⟨H', hres, hrec⟩ := delayedFieldTryAddDeltaOutcomeImpl_records hinv.readBounded
    (fun h => by simp [hinv.fresh h, accumulatedDelta_none]) hinv.bounded hinv.covers hinv.admits hd
  generalize hbdef : decide (0 ≤ (v0 : Int) + (accumulatedDelta change).toInt + d.toInt ∧
    (v0 : Int) + (accumulatedDelta change).toInt + d.toInt ≤ maxValue) = b at hres hrec
  have hb : (0 ≤ (v0 : Int) + (accumulatedDelta change).toInt + d.toInt ∧
      (v0 : Int) + (accumulatedDelta change).toInt + d.toInt ≤ maxValue) ↔ b = true := by
    rw [← hbdef]
    exact decide_eq_true_iff.symm
  cases change with
  | none =>
    -- the first success creates the change with the request itself
    simp only [accumulatedDelta_none] at hres
    refine ⟨b, H', if b then some ⟨d, maxValue⟩ else none,
      by delta tryAddDelta tryAddOrCheckDelta; simp [hg, hres], hb, hrec, ?_, ?_⟩
    · cases b <;> simp
    · cases b <;> simp [accumulatedDelta_none, accumulatedDelta_some]
  | some prev =>
    have hm : prev.maxValue = maxValue := hinv.changeMax prev rfl
    simp only [accumulatedDelta_some] at hres hb
    cases b with
    | true =>
      -- a success merges the request into the change; the accumulated delta and the request add
      -- up within the range, where `signed_add` succeeds
      have hs := hb.2 rfl
      have hv0 := hinv.admits.range
      obtain ⟨s, hsum⟩ : ∃ s, (BoundedMath.mk prev.maxValue).signedAdd prev.update d = .ok s :=
        BoundedMath.signedAdd_isOk (fun _ _ => by simp only [hm]; omega)
          (fun _ _ => by simp only [hm]; omega)
      have hmerge : prev.createMergedDelta ⟨d, maxValue⟩ = .ok ⟨s, prev.maxValue⟩ :=
        DeltaWithMax.createMergedDelta_eq_ok hm hsum
      refine ⟨true, H', some ⟨s, prev.maxValue⟩,
        by delta tryAddDelta tryAddOrCheckDelta; simp [hg, hm, hres, hmerge, expectOk_ok], hb, hrec,
        by simp [hm], ?_⟩
      simp [accumulatedDelta_some, BoundedMath.signedAdd_toInt hsum]
    | false =>
      refine ⟨false, H', some prev,
        by delta tryAddDelta tryAddOrCheckDelta; simp [hg, hm, hres], hb, hrec, hinv.changeMax,
        by simp⟩

/-- A run of requests keeps the run invariant, and its final history admits exactly the bases,
admitted at the start, on which replaying the requests from the base moved by the accumulated delta
gives the run's outcomes; on those bases the replay ends at the base moved by the final accumulated
delta. -/
theorem tryAddRun_spec (ds : List SignedU128) (hinv : RunInv maxValue v0 change read) :
    ∃ bs change' read', tryAddRun maxValue v0 ds change read = .ok (bs, change', read') ∧
      RunInv maxValue v0 change' read' ∧
      ∀ x : Int,
        ((capturedHistory read').Admits maxValue x ↔
          (capturedHistory read).Admits maxValue x ∧
            (replay maxValue (x + (accumulatedDelta change).toInt).toNat ds).1 = bs) ∧
        ((capturedHistory read').Admits maxValue x →
          ((replay maxValue (x + (accumulatedDelta change).toInt).toNat ds).2 : Int) =
            x + (accumulatedDelta change').toInt) := by
  -- induction on the requests, from any state of the invariant
  induction ds generalizing change read with
  | nil =>
    refine ⟨[], change, read, rfl, hinv, fun x => ⟨by simp [replay_nil], fun hx => ?_⟩⟩
    have := hx.add_covers hinv.covers
    simp only [replay_nil]
    omega
  | cons d ds ih =>
    obtain ⟨b, change₁, read₁, hstep, -, hinv₁, hacc₁, hadm₁⟩ := tryAddDelta_step hinv d
    obtain ⟨bs, change', read', hrun, hinv', hspec⟩ := ih hinv₁
    refine ⟨b :: bs, change', read', by rw [tryAddRun_cons, hstep]; simp [hrun], hinv', fun x => ⟨?_, ?_⟩⟩
    · rw [(hspec x).1, hadm₁, hacc₁, ← Int.add_assoc]
      constructor
      · rintro ⟨⟨hx, hiff⟩, hr⟩
        exact ⟨hx, (replay_cons_fst_eq (hx.add_covers hinv.covers)).2 ⟨hiff, hr⟩⟩
      · rintro ⟨hx, hr⟩
        obtain ⟨hiff, hr⟩ := (replay_cons_fst_eq (hx.add_covers hinv.covers)).1 hr
        exact ⟨⟨hx, hiff⟩, hr⟩
    · intro hx'
      -- the base was admitted after the first request, which had the same outcome on it
      obtain ⟨hx, hiff⟩ := (hadm₁ x).1 ((hspec x).1.1 hx').1
      have hif : (if 0 ≤ x + (accumulatedDelta change).toInt + d.toInt ∧
          x + (accumulatedDelta change).toInt + d.toInt ≤ maxValue then d.toInt else 0) =
          if b then d.toInt else 0 := if_congr hiff rfl rfl
      rw [replay_cons_snd (hx.add_covers hinv.covers), hif, Int.add_assoc, ← hacc₁, (hspec x).2 hx']

end Run

/-- The history a transaction's `try_add`/`try_sub` requests leave in the captured reads
characterises the bases on which they have the same outcomes: from any predicted value `v0` in
range, every run of requests succeeds (no request fails, with or without a code invariant error),
the final history validates a base `v` in range exactly when replaying the requests directly on `v`
gives the same outcomes, and then the accumulated delta takes `v` to the value the replay ends
at. -/
theorem tryAddRun_validate_iff_replay (maxValue v0 : Nat) (hv0 : v0 ≤ maxValue)
    (ds : List SignedU128) :
    ∃ bs change read, tryAddRun maxValue v0 ds none none = .ok (bs, change, read) ∧
      ∀ v ≤ maxValue,
        ((capturedHistory read).validateAgainstBaseValue v maxValue = .ok () ↔
          (replay maxValue v ds).1 = bs) ∧
        ((capturedHistory read).validateAgainstBaseValue v maxValue = .ok () →
          (BoundedMath.mk maxValue).unsignedAddDelta v (accumulatedDelta change) =
            .ok (replay maxValue v ds).2) := by
  obtain ⟨bs, change, read, hrun, hinv, hspec⟩ := tryAddRun_spec ds (runInv_init hv0)
  refine ⟨bs, change, read, hrun, fun v hv => ?_⟩
  have hstart : (v : Int) + (accumulatedDelta none).toInt = v := by simp [accumulatedDelta_none]
  rw [DeltaHistory.validateAgainstBaseValue_eq_ok hinv.bounded]
  obtain ⟨hadm, hval⟩ := hspec v
  rw [hstart, Int.toNat_natCast] at hadm hval
  refine ⟨by simpa [capturedHistory_none, DeltaHistory.admits_new_iff, hv] using hadm, fun hx => ?_⟩
  have hz := hval hx
  have hr := hx.add_covers hinv.covers
  exact (BoundedMath.unsignedAddDelta_eq_ok hv).2 ⟨hr.1, hr.2, hz⟩

/-- From predicted value 3 under limit 10, the requests `+5, -9, +8`, checked against base 4. -/
theorem tryAddRun_validate_iff_replay_three :
    ∃ bs change read,
      tryAddRun 10 3 [positive 5, negative 9, positive 8] none none = .ok (bs, change, read) ∧
        ((capturedHistory read).validateAgainstBaseValue 4 10 = .ok () ↔
          (replay 10 4 [positive 5, negative 9, positive 8]).1 = bs) :=
  have ⟨bs, change, read, hrun, h⟩ :=
    tryAddRun_validate_iff_replay 10 3 (by decide) [positive 5, negative 9, positive 8]
  ⟨bs, change, read, hrun, (h 4 (by decide)).1⟩


end CreditChain
