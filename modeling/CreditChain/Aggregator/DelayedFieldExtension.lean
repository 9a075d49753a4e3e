import CreditChain.Aggregator.DeltaChangeSet

/-!
# `try_add` and `try_sub` on a delayed field

The VM side of a `try_add`/`try_sub` on an aggregator whose value this transaction has not
created (`DelayedFieldData::try_add_or_check_delta` of `delayed_field_extension.rs`).  The
transaction's change to the field is `None` until a request succeeds, and then the accumulated
`DeltaWithMax`; every request asks the resolver for its outcome, passing the accumulated delta as
`base_delta`, and a successful request merges its input into the accumulated delta.

The resolver is a parameter with a state of its own: the block executor's resolver records the
reads of the transaction in its captured reads (`CreditChain.BlockExecutor.DelayedFieldView`).
-/

namespace CreditChain

open SignedU128

/-- A resolver's `delayed_field_try_add_delta_outcome` for one field, as a step on its state:
given `base_delta`, the requested `delta` and `max_value`, the outcome and the new state. -/
abbrev TryAddDeltaOutcome (σ : Type) :=
  σ → SignedU128 → SignedU128 → Nat →
    Except (PanicOr DelayedFieldsSpeculativeError) (Bool × σ)

/-- `try_add_or_check_delta` for a field whose change is `None` or an aggregator delta
(`DelayedChange::Apply(AggregatorDelta)`); `apply_delta` is `false` for a check that does not
change the field. -/
def tryAddOrCheckDelta {σ : Type} (resolver : TryAddDeltaOutcome σ) (change : Option DeltaWithMax)
    (state : σ) (maxValue : Nat) (input : SignedU128) (applyDelta : Bool) :
    Except (PanicOr DelayedFieldsSpeculativeError) (Bool × Option DeltaWithMax × σ) :=
  -- no need to record or check or try if the input exceeds the bound
  if input.abs > maxValue then .ok (false, change, state)
  else match change with
    | none => do
      let (result, state) ← resolver state (positive 0) input maxValue
      pure (result, if result && applyDelta then some ⟨input, maxValue⟩ else none, state)
    | some previousDelta => do
      let (result, state) ← resolver state previousDelta.update input previousDelta.maxValue
      if result && applyDelta then
        let merged ← (expectOk (previousDelta.createMergedDelta ⟨input, maxValue⟩)).mapError
          PanicOr.ofPanicError
        pure (result, some merged, state)
      else
        pure (result, some previousDelta, state)

/-- `try_add_delta`: `try_add_or_check_delta` that applies a successful delta. -/
def tryAddDelta {σ : Type} (resolver : TryAddDeltaOutcome σ) (change : Option DeltaWithMax)
    (state : σ) (maxValue : Nat) (input : SignedU128) :
    Except (PanicOr DelayedFieldsSpeculativeError) (Bool × Option DeltaWithMax × σ) :=
  tryAddOrCheckDelta resolver change state maxValue input true

/-- The accumulated delta of a field's change (`+0` before any success). -/
def accumulatedDelta : Option DeltaWithMax → SignedU128
  | none => positive 0
  | some delta => delta.update

theorem accumulatedDelta_none : accumulatedDelta none = positive 0 := rfl

theorem accumulatedDelta_some (delta : DeltaWithMax) : accumulatedDelta (some delta) = delta.update :=
  rfl

/-- Replaying requests directly on a known value with `unsigned_add_delta`: the outcome of each
request, and the final value. -/
def replay (maxValue : Nat) : Nat → List SignedU128 → List Bool × Nat
  | v, [] => ([], v)
  | v, d :: ds =>
    match (BoundedMath.mk maxValue).unsignedAddDelta v d with
    | .ok v' => ((replay maxValue v' ds).1.cons true, (replay maxValue v' ds).2)
    | .error _ => ((replay maxValue v ds).1.cons false, (replay maxValue v ds).2)

theorem replay_nil (maxValue v : Nat) : replay maxValue v [] = ([], v) := rfl

theorem replay_cons_eq (maxValue v : Nat) (d : SignedU128) (ds : List SignedU128) :
    replay maxValue v (d :: ds) =
      match (BoundedMath.mk maxValue).unsignedAddDelta v d with
      | .ok v' => ((replay maxValue v' ds).1.cons true, (replay maxValue v' ds).2)
      | .error _ => ((replay maxValue v ds).1.cons false, (replay maxValue v ds).2) := rfl

theorem replay_cons {maxValue v : Nat} {d : SignedU128} {ds : List SignedU128}
    (hv : v ≤ maxValue) :
    replay maxValue v (d :: ds) =
      if 0 ≤ (v : Int) + d.toInt ∧ (v : Int) + d.toInt ≤ maxValue then
        ((replay maxValue ((v : Int) + d.toInt).toNat ds).1.cons true,
          (replay maxValue ((v : Int) + d.toInt).toNat ds).2)
      else ((replay maxValue v ds).1.cons false, (replay maxValue v ds).2) := by
  rw [replay_cons_eq]
  split
  · rename_i v' hv'
    obtain ⟨h0, h1, h2⟩ := (BoundedMath.unsignedAddDelta_eq_ok hv).1 hv'
    rw [if_pos ⟨h0, h1⟩, show ((v : Int) + d.toInt).toNat = v' by omega]
  · rename_i e he
    have : ¬ (0 ≤ (v : Int) + d.toInt ∧ (v : Int) + d.toInt ≤ maxValue) := fun h =>
      have ⟨r, hr⟩ := (BoundedMath.unsignedAddDelta_isOk_iff hv).2 h
      by rw [hr] at he; cases he
    rw [if_neg this]

/-- One step of the replay from a value `y` in range, with its outcome named: the first outcome is
`b` exactly when `b` says whether `y + d` stays in range, and the replay goes on from `y`, moved by
`d` when `b` holds. -/
theorem replay_cons_fst_eq {maxValue : Nat} {d : SignedU128} {ds : List SignedU128} {y : Int}
    (hy : 0 ≤ y ∧ y ≤ maxValue) {b : Bool} {bs : List Bool} :
    (replay maxValue y.toNat (d :: ds)).1 = b :: bs ↔
      ((0 ≤ y + d.toInt ∧ y + d.toInt ≤ maxValue) ↔ b = true) ∧
        (replay maxValue (y + if b then d.toInt else 0).toNat ds).1 = bs := by
  have hy' : ((y.toNat : Nat) : Int) = y := by omega
  rw [replay_cons (by omega), hy']
  by_cases hs : 0 ≤ y + d.toInt ∧ y + d.toInt ≤ maxValue
  · rw [if_pos hs]; cases b <;> simp [hs]
  · rw [if_neg hs]; cases b <;> simp [hs]

/-- The final value of the replay from a value `y` in range, after its first step. -/
theorem replay_cons_snd {maxValue : Nat} {d : SignedU128} {ds : List SignedU128} {y : Int}
    (hy : 0 ≤ y ∧ y ≤ maxValue) :
    (replay maxValue y.toNat (d :: ds)).2 =
      (replay maxValue (y + if 0 ≤ y + d.toInt ∧ y + d.toInt ≤ maxValue then d.toInt else 0).toNat
        ds).2 := by
  have hy' : ((y.toNat : Nat) : Int) = y := by omega
  rw [replay_cons (by omega), hy']
  split_ifs <;> simp

end CreditChain
