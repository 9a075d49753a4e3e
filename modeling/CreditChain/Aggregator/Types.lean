import CreditChain.Aggregator.BoundedMath
import CreditChain.Lib.Except

/-!
# Error types of delayed fields

The error types the aggregator code returns: `PanicError` and `PanicOr` of `types/src/error.rs`,
with `code_invariant_error` and `expect_ok`, and `DelayedFieldsSpeculativeError` of the aggregator's
`types.rs`.  A `PanicOr::CodeInvariantError` marks a state the code treats as a bug; the results of
this development say when none can be returned.

The message of `expect_ok` is kept without the `Debug` rendering of the error it wraps.
-/

namespace CreditChain

/-- `PanicError`. -/
inductive PanicError
  | codeInvariantError (message : String)
  deriving DecidableEq, Repr

/-- `PanicOr<T>`: a code-invariant error or a non-panic error of type `T`. -/
inductive PanicOr (T : Type)
  | codeInvariantError (message : String)
  | or (error : T)
  deriving DecidableEq, Repr

/-- `From<PanicError> for PanicOr<T>`, the conversion `?` performs. -/
def PanicOr.ofPanicError {T : Type} : PanicError → PanicOr T
  | .codeInvariantError message => .codeInvariantError message

/-- Whether an error is a code-invariant error. -/
def PanicOr.isCodeInvariantError {T : Type} : PanicOr T → Bool
  | .codeInvariantError _ => true
  | .or _ => false

/-- `code_invariant_error`. -/
def codeInvariantError (message : String) : PanicError :=
  .codeInvariantError ("Code invariant broken (there is a bug in the code), " ++ message)

/-- `expect_ok`: an error becomes a code-invariant error. -/
def expectOk {V E : Type} (value : Except E V) : Except PanicError V :=
  value.mapError fun _ => codeInvariantError "Expected Ok, got Err"

theorem expectOk_eq_ok {V E : Type} {value : Except E V} {v : V} :
    expectOk value = .ok v ↔ value = .ok v := Except.mapError_eq_ok

theorem expectOk_ok {V E : Type} (v : V) : expectOk (.ok v : Except E V) = .ok v := rfl

/-- `DeltaApplicationFailureReason`. -/
inductive DeltaApplicationFailureReason
  | overflow
  | underflow
  | expectedOverflow
  | expectedUnderflow
  deriving DecidableEq, Repr

/-- `DeltaHistoryMergeOffsetFailureReason`. -/
inductive DeltaHistoryMergeOffsetFailureReason
  | achievedExceedsBounds
  | failureNotExceedingBoundsAnyMore
  deriving DecidableEq, Repr

/-- `DelayedFieldsSpeculativeError`, without the `NotFound` variant, which no modelled function
returns. -/
inductive DelayedFieldsSpeculativeError
  | deltaApplication (baseValue maxValue : Nat) (delta : SignedU128)
      (reason : DeltaApplicationFailureReason)
  | deltaMerge (baseDelta delta : SignedU128) (maxValue : Nat)
  | deltaHistoryMergeOffset (target : Nat) (delta : SignedU128) (maxValue : Nat)
      (reason : DeltaHistoryMergeOffsetFailureReason)
  | deltaHistoryMergeAchievedAndFailureOverlap (achieved overflow : SignedU128)
  | inconsistentRead
  deriving DecidableEq, Repr

end CreditChain
