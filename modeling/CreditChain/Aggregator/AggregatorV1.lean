import CreditChain.Aggregator.DeltaMath

/-!
# Aggregators v1

`Aggregator` of `aggregator_v1_extension.rs`.  An aggregator whose value the transaction has read
is in `Data` state and is added to and subtracted from directly.  One it has not read holds a
running delta, `PositiveDelta` or `NegativeDelta` by its sign, and records every delta it reaches
in a `DeltaHistory`; `read_and_materialize` later validates the history against the value in
storage and applies the delta to it.

A run of `add`/`sub` calls in delta mode does what the same run does in data mode on every base the
final history admits, and fails only where the data-mode run fails on every admitted base
(`applyAll_delta`).  So the delta mode refines the data mode (`delta_mode_refines_data_mode`).

A panic (`unreachable!`, `expect`) is `none`.
-/

namespace CreditChain

open SignedU128

/-- `EADD_OVERFLOW`. -/
def eaddOverflow : Nat := 0x020001

/-- `ESUB_UNDERFLOW`. -/
def esubUnderflow : Nat := 0x020002

/-- `PartialVMError`, by the ways the aggregator builds one: an abort with a message and a
sub-status, an extension error, a code-invariant error, and a speculative error, whose message is
the `Debug` rendering of the error it keeps. -/
inductive PartialVMError
  | aborted (message : String) (subStatus : Nat)
  | vmExtensionError (message : String)
  | codeInvariantError (message : String)
  | speculativeExecutionAbortError (error : DelayedFieldsSpeculativeError)
  deriving DecidableEq, Repr

/-- `From<PanicError> for PartialVMError`. -/
def PartialVMError.ofPanicError : PanicError → PartialVMError
  | .codeInvariantError message => .codeInvariantError message

/-- `abort_error`. -/
def abortError (message : String) (code : Nat) : PartialVMError :=
  .aborted message code

/-- `addition_v1_error`. -/
def additionV1Error {T : Type} (_err : T) : PartialVMError :=
  abortError "overflow" eaddOverflow

/-- `subtraction_v1_error`. -/
def subtractionV1Error {T : Type} (_err : T) : PartialVMError :=
  abortError "underflow" esubUnderflow

/-- `extension_error`. -/
def extensionError (message : String) : PartialVMError :=
  .vmExtensionError message

/-- `AggregatorID`, by the state key it wraps. -/
abbrev AggregatorID := Nat

/-- `AggregatorState`. -/
inductive AggregatorState
  | data
  | positiveDelta
  | negativeDelta
  deriving DecidableEq, Repr

/-- `Aggregator`. -/
structure Aggregator where
  value : Nat
  state : AggregatorState
  maxValue : Nat
  history : Option DeltaHistory
  deriving DecidableEq, Repr

namespace Aggregator

/-- `Aggregator::record`: the running delta is recorded as a success. -/
def record (self : Aggregator) : Option Aggregator :=
  match self.history with
  | none => some self
  | some history =>
    match self.state with
    | .positiveDelta => some { self with history := some (history.recordSuccess (positive self.value)) }
    | .negativeDelta => some { self with history := some (history.recordSuccess (negative self.value)) }
    | .data => none

/-- `Aggregator::validate_history`: an overflow or underflow of the history aborts as the
operation would have. -/
def validateHistory (self : Aggregator) (baseValue : Nat) : Option (Except PartialVMError Unit) :=
  match self.history with
  | none => none
  | some history =>
    match history.validateAgainstBaseValue baseValue self.maxValue with
    | .ok () => some (.ok ())
    | .error (.deltaApplication _ _ _ .overflow) => some (.error (abortError "overflow" eaddOverflow))
    | .error (.deltaApplication _ _ _ .underflow) =>
      some (.error (abortError "underflow" esubUnderflow))
    | .error e => some (.error (.speculativeExecutionAbortError e))

/-- `Aggregator::add`. -/
def add (self : Aggregator) (value : Nat) : Option (Except PartialVMError Aggregator) :=
  let math : BoundedMath := ⟨self.maxValue⟩
  match self.state with
  | .data =>
    -- a known value is added to directly, and no history is kept
    some (((math.unsignedAdd self.value value).mapError additionV1Error).map
      fun v => { self with value := v })
  | .positiveDelta =>
    match math.unsignedAdd self.value value with
    | .error e => some (.error (additionV1Error e))
    | .ok v => Except.ok <$> { self with value := v }.record
  | .negativeDelta =>
    -- `-X + Y` is `+(Y - X)` when `X ≤ Y`, and `-(X - Y)` otherwise
    if self.value ≤ value then
      match expectOk (math.unsignedSubtract value self.value) with
      | .error e => some (.error (.ofPanicError e))
      | .ok v => Except.ok <$> { self with value := v, state := .positiveDelta }.record
    else
      match expectOk (math.unsignedSubtract self.value value) with
      | .error e => some (.error (.ofPanicError e))
      | .ok v => Except.ok <$> { self with value := v }.record

/-- `Aggregator::sub`. -/
def sub (self : Aggregator) (value : Nat) : Option (Except PartialVMError Aggregator) :=
  let math : BoundedMath := ⟨self.maxValue⟩
  match self.state with
  | .data =>
    some (((math.unsignedSubtract self.value value).mapError subtractionV1Error).map
      fun v => { self with value := v })
  | .positiveDelta =>
    -- `+X - Y` is `+(X - Y)` when `X ≥ Y`, and `-(Y - X)` otherwise, where `Y` must not exceed
    -- `max_value`
    if self.value ≥ value then
      match math.unsignedSubtract self.value value with
      | .error e => some (.error (subtractionV1Error e))
      | .ok v => Except.ok <$> { self with value := v }.record
    else
      match math.unsignedSubtract self.maxValue value with
      | .error e => some (.error (subtractionV1Error e))
      | .ok _ =>
        match math.unsignedSubtract value self.value with
        | .error e => some (.error (subtractionV1Error e))
        | .ok v => Except.ok <$> { self with value := v, state := .negativeDelta }.record
  | .negativeDelta =>
    match math.unsignedAdd self.value value with
    | .error e => some (.error (subtractionV1Error e))
    | .ok v => Except.ok <$> { self with value := v }.record

/-- `Aggregator::read_and_materialize`, with what the resolver returns for the aggregator's state
key (an error rendered as its message). -/
def readAndMaterialize (self : Aggregator) (valueFromStorage : Except String (Option Nat))
    (id : AggregatorID) : Option (Except PartialVMError (Nat × Aggregator)) :=
  if self.state = .data then some (.ok (self.value, self))
  else
    match valueFromStorage with
    | .error e => some (.error (extensionError s!"Could not find the value of the aggregator: {e}"))
    | .ok none => some (.error (extensionError s!"Could not read from deleted aggregator at {id}"))
    | .ok (some valueFromStorage) =>
      match self.validateHistory valueFromStorage with
      | none => none
      | some (.error e) => some (.error e)
      | some (.ok ()) =>
        let math : BoundedMath := ⟨self.maxValue⟩
        let materialized := fun v => (v, { self with value := v, state := .data, history := none })
        match self.state with
        | .positiveDelta =>
          -- `expect("Validated delta cannot overflow")`
          (math.unsignedAdd valueFromStorage self.value).toOption.map (.ok ∘ materialized)
        | .negativeDelta =>
          -- `expect("Validated delta cannot underflow")`
          (math.unsignedSubtract valueFromStorage self.value).toOption.map (.ok ∘ materialized)
        | .data => none

end Aggregator

/-- The aggregator `AggregatorData::get_aggregator` creates for one the transaction has not
created: a zero positive delta with an empty history. -/
def deltaAggregator (maxValue : Nat) : Aggregator :=
  ⟨0, .positiveDelta, maxValue, some DeltaHistory.new⟩

/-- An aggregator that knows its value. -/
def dataAggregator (maxValue value : Nat) : Aggregator :=
  ⟨value, .data, maxValue, none⟩

/-- A call on an aggregator. -/
inductive AggregatorOp
  | add (value : Nat)
  | sub (value : Nat)
  deriving DecidableEq, Repr

namespace AggregatorOp

/-- The change a call asks for. -/
def toInt : AggregatorOp → Int
  | add value => value
  | sub value => -value

@[simp] theorem toInt_add (value : Nat) : (add value).toInt = value := rfl

@[simp] theorem toInt_sub (value : Nat) : (sub value).toInt = -value := rfl

end AggregatorOp

namespace Aggregator

/-- One call. -/
def apply (self : Aggregator) : AggregatorOp → Option (Except PartialVMError Aggregator)
  | .add value => self.add value
  | .sub value => self.sub value

theorem apply_add (self : Aggregator) (value : Nat) : self.apply (.add value) = self.add value :=
  rfl

theorem apply_sub (self : Aggregator) (value : Nat) : self.apply (.sub value) = self.sub value :=
  rfl

/-- A run of calls, up to the first that fails. -/
def applyAll (self : Aggregator) : List AggregatorOp → Option (Except PartialVMError Aggregator)
  | [] => some (.ok self)
  | op :: ops =>
    match self.apply op with
    | some (.ok self) => self.applyAll ops
    | result => result

theorem applyAll_cons (self : Aggregator) (op : AggregatorOp) (ops : List AggregatorOp) :
    self.applyAll (op :: ops) =
      match self.apply op with
      | some (.ok self) => self.applyAll ops
      | result => result := rfl

/-- The running delta of an aggregator in delta state. -/
def signedDelta (self : Aggregator) : SignedU128 :=
  match self.state with
  | .negativeDelta => negative self.value
  | _ => positive self.value

theorem signedDelta_eq (self : Aggregator) :
    self.signedDelta =
      if self.state = .negativeDelta then negative self.value else positive self.value := by
  obtain ⟨value, state, maxValue, history⟩ := self
  cases state <;> rfl

theorem signedDelta_deltaAggregator (maxValue : Nat) :
    (deltaAggregator maxValue).signedDelta = positive 0 := rfl

/-- An aggregator in delta state with its history: the failure bounds lie in range, and the
history covers the running delta. -/
structure DeltaInv (maxValue : Nat) (agg : Aggregator) (history : DeltaHistory) : Prop where
  notData : agg.state ≠ .data
  maxValue_eq : agg.maxValue = maxValue
  history_eq : agg.history = some history
  bounded : history.FailuresBounded maxValue
  covers : history.Covers agg.signedDelta

section Steps

variable {maxValue : Nat} {agg : Aggregator} {h : DeltaHistory}

theorem deltaInv_deltaAggregator (maxValue : Nat) :
    DeltaInv maxValue (deltaAggregator maxValue) DeltaHistory.new where
  notData := by intro h; cases h
  maxValue_eq := rfl
  history_eq := rfl
  bounded := DeltaHistory.failuresBounded_new
  covers := by
    rw [DeltaHistory.covers_iff, signedDelta_deltaAggregator, toInt_positive]
    constructor <;> omega

/-- Recording in delta state records the running delta, and the recorded history covers it. -/
private theorem record_deltaInv {a : Aggregator} (hstate : a.state ≠ .data)
    (hmax : a.maxValue = maxValue) (hhist : a.history = some h) (hb : h.FailuresBounded maxValue) :
    ∃ a', a.record = some a' ∧ a'.signedDelta = a.signedDelta ∧
      DeltaInv maxValue a' (h.recordSuccess a.signedDelta) := by
  have hdelta : a.signedDelta = match a.state with
      | .negativeDelta => negative a.value
      | _ => positive a.value := rfl
  refine ⟨{ a with history := some (h.recordSuccess a.signedDelta) }, ?_, rfl,
    ⟨hstate, hmax, rfl, hb.recordSuccess _, DeltaHistory.covers_recordSuccess _⟩⟩
  unfold record
  rw [hhist]
  cases hs : a.state with
  | data => exact absurd hs hstate
  | positiveDelta => simp [hdelta, hs]
  | negativeDelta => simp [hdelta, hs]

/-- A data-mode call succeeds exactly when its result stays in `[0, max_value]`. -/
theorem apply_dataAggregator {v : Nat} (hv : v ≤ maxValue) (op : AggregatorOp) :
    ((0 ≤ (v : Int) + op.toInt ∧ (v : Int) + op.toInt ≤ maxValue) →
      (dataAggregator maxValue v).apply op =
        some (.ok (dataAggregator maxValue ((v : Int) + op.toInt).toNat))) ∧
    (¬ (0 ≤ (v : Int) + op.toInt ∧ (v : Int) + op.toInt ≤ maxValue) →
      ∃ e, (dataAggregator maxValue v).apply op = some (.error e)) := by
  cases op with
  | add y =>
    rw [apply_add, AggregatorOp.toInt_add]
    delta add dataAggregator
    dsimp only
    cases hadd : (BoundedMath.mk maxValue).unsignedAdd v y with
    | ok r =>
      obtain ⟨hle, rfl⟩ := BoundedMath.unsignedAdd_eq_ok.mp hadd
      have hle : v + y ≤ maxValue := hle
      have hr : ((v : Int) + (y : Int)).toNat = v + y := by omega
      refine ⟨fun _ => by rw [hr]; rfl, fun hout => absurd ⟨by omega, by omega⟩ hout⟩
    | error e =>
      have hgt : maxValue < v + y := (BoundedMath.unsignedAdd_eq_error.mp hadd).1
      exact ⟨fun hin => absurd hin (by omega), fun _ => ⟨_, rfl⟩⟩
  | sub y =>
    rw [apply_sub, AggregatorOp.toInt_sub]
    delta sub dataAggregator
    dsimp only
    cases hsub : (BoundedMath.mk maxValue).unsignedSubtract v y with
    | ok r =>
      obtain ⟨hle, rfl⟩ := BoundedMath.unsignedSubtract_eq_ok.mp hsub
      have hr : ((v : Int) + -(y : Int)).toNat = v - y := by omega
      refine ⟨fun _ => by rw [hr]; rfl, fun hout => absurd ⟨by omega, by omega⟩ hout⟩
    | error e =>
      have hgt : v < y := (BoundedMath.unsignedSubtract_eq_error.mp hsub).1
      exact ⟨fun hin => absurd hin (by omega), fun _ => ⟨_, rfl⟩⟩

/-- The success branch of a delta-mode call: the aggregator with its new value, in delta state,
records its delta, and the invariant holds of the recorded history. -/
private theorem record_step (hinv : DeltaInv maxValue agg h) {a : Aggregator} {d : Int}
    (hs : a.state ≠ .data) (hmax : a.maxValue = agg.maxValue) (hhist : a.history = agg.history)
    (hd : a.signedDelta.toInt = agg.signedDelta.toInt + d) :
    ∃ agg', (Except.ok <$> a.record : Option (Except PartialVMError Aggregator)) = some (.ok agg') ∧
      agg'.signedDelta.toInt = agg.signedDelta.toInt + d ∧
      DeltaInv maxValue agg' (h.recordSuccess agg'.signedDelta) := by
  obtain ⟨a', hrec, hdelta, hinv'⟩ :=
    record_deltaInv hs (hmax.trans hinv.maxValue_eq) (hhist.trans hinv.history_eq) hinv.bounded
  exact ⟨a', by rw [hrec]; rfl, by rw [hdelta, hd], by rwa [hdelta]⟩

/-- A delta-mode call either moves the running delta by the call and records it, or fails, and
then the same call in data mode fails on every base that takes the running delta into range. -/
theorem apply_delta (hinv : DeltaInv maxValue agg h) (op : AggregatorOp) :
    (∃ agg', agg.apply op = some (.ok agg') ∧
      agg'.signedDelta.toInt = agg.signedDelta.toInt + op.toInt ∧
      DeltaInv maxValue agg' (h.recordSuccess agg'.signedDelta)) ∨
    (∃ e, agg.apply op = some (.error e) ∧
      ∀ x : Int, 0 ≤ x → x ≤ maxValue → 0 ≤ x + agg.signedDelta.toInt →
        x + agg.signedDelta.toInt ≤ maxValue →
        ¬ (0 ≤ x + agg.signedDelta.toInt + op.toInt ∧
          x + agg.signedDelta.toInt + op.toInt ≤ maxValue)) := by
  have hmax := hinv.maxValue_eq
  cases hs : agg.state with
  | data => exact absurd hs hinv.notData
  | positiveDelta =>
    have hX : agg.signedDelta.toInt = agg.value := by simp [signedDelta_eq, hs]
    cases op with
    | add y =>
      rw [apply_add, AggregatorOp.toInt_add]
      delta add
      simp only [hs]
      cases hadd : (BoundedMath.mk agg.maxValue).unsignedAdd agg.value y with
      | ok r =>
        have hr : r = agg.value + y := (BoundedMath.unsignedAdd_eq_ok.mp hadd).2
        exact .inl (record_step hinv (by simp) rfl rfl (by simp [signedDelta_eq, hs, hr]))
      | error e =>
        -- `X + Y` overflows, and so does any base plus it
        have hgt : maxValue < agg.value + y := hmax ▸ (BoundedMath.unsignedAdd_eq_error.mp hadd).1
        exact .inr ⟨_, rfl, fun x hx _ _ _ hin => by omega⟩
    | sub y =>
      rw [apply_sub, AggregatorOp.toInt_sub]
      delta sub
      simp only [hs]
      split_ifs with hge
      · cases hsub : (BoundedMath.mk agg.maxValue).unsignedSubtract agg.value y with
        | ok r =>
          have hr : r = agg.value - y := (BoundedMath.unsignedSubtract_eq_ok.mp hsub).2
          exact .inl (record_step hinv (by simp) rfl rfl (by simp [signedDelta_eq, hs, hr]; omega))
        | error e => exact absurd (BoundedMath.unsignedSubtract_eq_error.mp hsub).1 (by omega)
      · cases hcheck : (BoundedMath.mk agg.maxValue).unsignedSubtract agg.maxValue y with
        | error e =>
          -- `Y` exceeds `max_value`, so `X - Y` takes every base in range below zero
          have hgt : maxValue < y := hmax ▸ (BoundedMath.unsignedSubtract_eq_error.mp hcheck).1
          exact .inr ⟨_, rfl, fun x _ _ _ hle hin => by omega⟩
        | ok _ =>
          cases hsub : (BoundedMath.mk agg.maxValue).unsignedSubtract y agg.value with
          | ok r =>
            have hr : r = y - agg.value := (BoundedMath.unsignedSubtract_eq_ok.mp hsub).2
            exact .inl (record_step hinv (by simp) rfl rfl
              (by simp [signedDelta_eq, hs, hr]; omega))
          | error e => exact absurd (BoundedMath.unsignedSubtract_eq_error.mp hsub).1 (by omega)
  | negativeDelta =>
    have hX : agg.signedDelta.toInt = -(agg.value : Int) := by simp [signedDelta_eq, hs]
    cases op with
    | add y =>
      rw [apply_add, AggregatorOp.toInt_add]
      delta add
      simp only [hs]
      split_ifs with hle
      · cases hsub : (BoundedMath.mk agg.maxValue).unsignedSubtract y agg.value with
        | ok r =>
          have hr : r = y - agg.value := (BoundedMath.unsignedSubtract_eq_ok.mp hsub).2
          exact .inl (record_step hinv (by simp) rfl rfl (by simp [signedDelta_eq, hs, hr]; omega))
        | error e => exact absurd (BoundedMath.unsignedSubtract_eq_error.mp hsub).1 (by omega)
      · cases hsub : (BoundedMath.mk agg.maxValue).unsignedSubtract agg.value y with
        | ok r =>
          have hr : r = agg.value - y := (BoundedMath.unsignedSubtract_eq_ok.mp hsub).2
          exact .inl (record_step hinv (by simp) rfl rfl
            (by simp [signedDelta_eq, hs, hr]; omega))
        | error e => exact absurd (BoundedMath.unsignedSubtract_eq_error.mp hsub).1 (by omega)
    | sub y =>
      rw [apply_sub, AggregatorOp.toInt_sub]
      delta sub
      simp only [hs]
      cases hadd : (BoundedMath.mk agg.maxValue).unsignedAdd agg.value y with
      | ok r =>
        have hr : r = agg.value + y := (BoundedMath.unsignedAdd_eq_ok.mp hadd).2
        exact .inl (record_step hinv (by simp) rfl rfl (by simp [signedDelta_eq, hs, hr]; omega))
      | error e =>
        -- `-(X + Y)` with `X + Y` past `max_value` takes every base in range below zero
        have hgt : maxValue < agg.value + y := hmax ▸ (BoundedMath.unsignedAdd_eq_error.mp hadd).1
        exact .inr ⟨_, rfl, fun x _ hxle _ _ hin => by omega⟩

/-- The first call of a data-mode run: the run goes on from the new value when it is in range,
and fails otherwise. -/
theorem applyAll_dataAggregator_cons {v : Nat} (hv : v ≤ maxValue) (op : AggregatorOp)
    (ops : List AggregatorOp) :
    ((0 ≤ (v : Int) + op.toInt ∧ (v : Int) + op.toInt ≤ maxValue) →
      (dataAggregator maxValue v).applyAll (op :: ops) =
        (dataAggregator maxValue ((v : Int) + op.toInt).toNat).applyAll ops) ∧
    (¬ (0 ≤ (v : Int) + op.toInt ∧ (v : Int) + op.toInt ≤ maxValue) →
      ∃ e, (dataAggregator maxValue v).applyAll (op :: ops) = some (.error e)) := by
  obtain ⟨hin, hout⟩ := apply_dataAggregator hv op
  refine ⟨fun hr => by rw [applyAll_cons, hin hr], fun hr => ?_⟩
  obtain ⟨e, he⟩ := hout hr
  exact ⟨e, by rw [applyAll_cons, he]⟩

/-- A run of delta-mode calls either ends with a history that admits exactly the admitted bases
on which the data-mode run succeeds, where it ends at the base moved by the final delta, or fails,
and then the data-mode run fails on every admitted base. -/
theorem applyAll_delta (ops : List AggregatorOp) (hinv : DeltaInv maxValue agg h) :
    (∃ agg' h', agg.applyAll ops = some (.ok agg') ∧ DeltaInv maxValue agg' h' ∧
      ∀ x : Nat,
        (h'.Admits maxValue x ↔ h.Admits maxValue x ∧
          ∃ a, (dataAggregator maxValue ((x : Int) + agg.signedDelta.toInt).toNat).applyAll ops =
            some (.ok a)) ∧
        (h'.Admits maxValue x →
          (dataAggregator maxValue ((x : Int) + agg.signedDelta.toInt).toNat).applyAll ops =
            some (.ok (dataAggregator maxValue ((x : Int) + agg'.signedDelta.toInt).toNat)))) ∨
    (∃ e, agg.applyAll ops = some (.error e) ∧
      ∀ x : Nat, h.Admits maxValue x →
        ∃ e', (dataAggregator maxValue ((x : Int) + agg.signedDelta.toInt).toNat).applyAll ops =
          some (.error e')) := by
  induction ops generalizing agg h with
  | nil =>
    exact .inl ⟨agg, h, rfl, hinv, fun x =>
      ⟨⟨fun hx => ⟨hx, _, rfl⟩, fun hx => hx.1⟩, fun _ => rfl⟩⟩
  | cons op ops ih =>
    -- the data-mode value of an admitted base is in range, and the first call moves it by `op`
    have hdata : ∀ x : Nat, h.Admits maxValue x →
        ((0 ≤ (x : Int) + agg.signedDelta.toInt + op.toInt ∧
            (x : Int) + agg.signedDelta.toInt + op.toInt ≤ maxValue) →
          (dataAggregator maxValue ((x : Int) + agg.signedDelta.toInt).toNat).applyAll (op :: ops) =
            (dataAggregator maxValue ((x : Int) + agg.signedDelta.toInt + op.toInt).toNat).applyAll
              ops) ∧
        (¬ (0 ≤ (x : Int) + agg.signedDelta.toInt + op.toInt ∧
            (x : Int) + agg.signedDelta.toInt + op.toInt ≤ maxValue) →
          ∃ e, (dataAggregator maxValue ((x : Int) + agg.signedDelta.toInt).toNat).applyAll
            (op :: ops) = some (.error e)) := by
      intro x hx
      obtain ⟨h0, hmax⟩ := hx.add_covers hinv.covers
      have hv : (((x : Int) + agg.signedDelta.toInt).toNat : Int) = x + agg.signedDelta.toInt :=
        Int.toNat_of_nonneg h0
      have hle : ((x : Int) + agg.signedDelta.toInt).toNat ≤ maxValue := by omega
      have := applyAll_dataAggregator_cons hle op ops
      rw [hv] at this
      exact this
    rcases apply_delta hinv op with ⟨a₁, hstep, hd, hinv₁⟩ | ⟨e, hstep, hfail⟩
    · have hrun : agg.applyAll (op :: ops) = a₁.applyAll ops := by rw [applyAll_cons, hstep]
      -- the history after the first call admits the bases whose value it keeps in range
      have hadm₁ : ∀ x : Int, (h.recordSuccess a₁.signedDelta).Admits maxValue x ↔
          h.Admits maxValue x ∧ 0 ≤ x + agg.signedDelta.toInt + op.toInt ∧
            x + agg.signedDelta.toInt + op.toInt ≤ maxValue := by
        intro x
        rw [DeltaHistory.admits_recordSuccess, hd, Int.add_assoc]
      rw [hrun]
      rcases ih hinv₁ with ⟨agg', h', hrun', hinv', hspec⟩ | ⟨e, hrun', hfail⟩
      · refine .inl ⟨agg', h', hrun', hinv', fun x => ⟨?_, fun hx => ?_⟩⟩
        · rw [(hspec x).1, hadm₁, hd, ← Int.add_assoc]
          constructor
          · rintro ⟨⟨hx, hin⟩, hrest⟩
            exact ⟨hx, by rw [(hdata x hx).1 hin]; exact hrest⟩
          · rintro ⟨hx, a, hv⟩
            by_cases hin : 0 ≤ (x : Int) + agg.signedDelta.toInt + op.toInt ∧
                (x : Int) + agg.signedDelta.toInt + op.toInt ≤ maxValue
            · exact ⟨⟨hx, hin⟩, by rw [← (hdata x hx).1 hin]; exact ⟨a, hv⟩⟩
            · obtain ⟨e, he⟩ := (hdata x hx).2 hin
              rw [he] at hv
              cases hv
        · obtain ⟨hx₁, -⟩ := ((hspec x).1.mp hx)
          obtain ⟨hx₀, hin⟩ := (hadm₁ x).mp hx₁
          rw [(hdata x hx₀).1 hin, Int.add_assoc, ← hd]
          exact (hspec x).2 hx
      · refine .inr ⟨e, hrun', fun x hx => ?_⟩
        by_cases hin : 0 ≤ (x : Int) + agg.signedDelta.toInt + op.toInt ∧
            (x : Int) + agg.signedDelta.toInt + op.toInt ≤ maxValue
        · rw [(hdata x hx).1 hin, Int.add_assoc, ← hd]
          exact hfail x ((hadm₁ x).mpr ⟨hx, hin⟩)
        · exact (hdata x hx).2 hin
    · refine .inr ⟨e, by rw [applyAll_cons, hstep], fun x hx => ?_⟩
      obtain ⟨h0, hmax⟩ := hx.add_covers hinv.covers
      obtain ⟨hx0, hxmax⟩ := hx.range
      exact (hdata x hx).2 (hfail x hx0 hxmax h0 hmax)

/-- Validation accepts exactly the bases the history admits. -/
theorem validateHistory_eq_ok (hinv : DeltaInv maxValue agg h) {base : Nat} :
    agg.validateHistory base = some (.ok ()) ↔ h.Admits maxValue base := by
  rw [← DeltaHistory.validateAgainstBaseValue_eq_ok hinv.bounded]
  unfold validateHistory
  rw [hinv.history_eq, hinv.maxValue_eq]
  dsimp only
  -- every error of the history, renamed or not, is an error of the aggregator
  split <;> simp [*]

/-- Materializing from an admitted base reads the base moved by the running delta, and leaves
the aggregator in data state there: the `expect` on the bounded arithmetic holds. -/
theorem readAndMaterialize_of_admits (hinv : DeltaInv maxValue agg h) {base : Nat}
    (hx : h.Admits maxValue base) (id : AggregatorID) :
    agg.readAndMaterialize (.ok (some base)) id =
      some (.ok (((base : Int) + agg.signedDelta.toInt).toNat,
        dataAggregator maxValue ((base : Int) + agg.signedDelta.toInt).toNat)) := by
  obtain ⟨h0, hmax⟩ := hx.add_covers hinv.covers
  have hdata : ∀ v, { agg with value := v, state := .data, history := none } =
      dataAggregator maxValue v := by
    intro v
    rw [← hinv.maxValue_eq]
    rfl
  have hm : (BoundedMath.mk agg.maxValue).maxValue = maxValue := hinv.maxValue_eq
  unfold readAndMaterialize
  rw [if_neg hinv.notData]
  dsimp only
  rw [(validateHistory_eq_ok hinv).mpr hx]
  cases hs : agg.state with
  | data => exact absurd hs hinv.notData
  | positiveDelta =>
    have hX : agg.signedDelta.toInt = agg.value := by simp [signedDelta_eq, hs]
    have hadd : (BoundedMath.mk agg.maxValue).unsignedAdd base agg.value =
        .ok (base + agg.value) :=
      BoundedMath.unsignedAdd_eq_ok.mpr ⟨by omega, rfl⟩
    have hv : ((base : Int) + agg.signedDelta.toInt).toNat = base + agg.value := by omega
    simp [hadd, hv, hdata, Except.toOption_ok]
  | negativeDelta =>
    have hX : agg.signedDelta.toInt = -agg.value := by simp [signedDelta_eq, hs]
    have hsub : (BoundedMath.mk agg.maxValue).unsignedSubtract base agg.value =
        .ok (base - agg.value) :=
      BoundedMath.unsignedSubtract_eq_ok.mpr ⟨by omega, rfl⟩
    have hv : ((base : Int) + agg.signedDelta.toInt).toNat = base - agg.value := by omega
    simp [hsub, hv, hdata, Except.toOption_ok]

end Steps

/-- Delta mode refines data mode. Starting from a zero delta with an empty history, a run of
calls that succeeds and then validates against a base `b` succeeds in data mode from `b`, and ends
at the value that materialization reads from `b`; a run that succeeds in data mode from `b`
succeeds in delta mode and validates against `b`. -/
theorem delta_mode_refines_data_mode (maxValue b : Nat) (hb : b ≤ maxValue)
    (ops : List AggregatorOp) (id : AggregatorID) :
    (∀ agg, (deltaAggregator maxValue).applyAll ops = some (.ok agg) →
      agg.validateHistory b = some (.ok ()) →
      ∃ v, (dataAggregator maxValue b).applyAll ops = some (.ok (dataAggregator maxValue v)) ∧
        agg.readAndMaterialize (.ok (some b)) id = some (.ok (v, dataAggregator maxValue v))) ∧
    (∀ a, (dataAggregator maxValue b).applyAll ops = some (.ok a) →
      ∃ agg, (deltaAggregator maxValue).applyAll ops = some (.ok agg) ∧
        agg.validateHistory b = some (.ok ())) := by
  have hinv := deltaInv_deltaAggregator maxValue
  have hbase : ((b : Int) + (deltaAggregator maxValue).signedDelta.toInt).toNat = b := by
    rw [signedDelta_deltaAggregator, toInt_positive]
    omega
  have hnew : DeltaHistory.new.Admits maxValue b :=
    DeltaHistory.admits_new_iff.mpr ⟨by omega, by omega⟩
  rcases applyAll_delta ops hinv with ⟨agg', h', hrun, hinv', hspec⟩ | ⟨e, hrun, hfail⟩
  · refine ⟨fun agg hagg hval => ?_, fun a ha => ⟨agg', hrun, ?_⟩⟩
    · -- the run's aggregator is the one the run lemma describes
      rw [hrun, Option.some.injEq, Except.ok.injEq] at hagg
      subst hagg
      have hx := (validateHistory_eq_ok hinv').mp hval
      refine ⟨_, ?_, readAndMaterialize_of_admits hinv' hx id⟩
      rw [← hbase]
      exact (hspec b).2 hx
    · refine (validateHistory_eq_ok hinv').mpr ((hspec b).1.mpr ⟨hnew, a, ?_⟩)
      rw [hbase]
      exact ha
  · -- a failing delta run fails in data mode from every admitted base, `b` among them
    obtain ⟨e', he'⟩ := hfail b hnew
    rw [hbase] at he'
    refine ⟨fun agg hagg _ => ?_, fun a ha => ?_⟩
    · rw [hrun] at hagg
      cases hagg
    · rw [he'] at ha
      cases ha

theorem delta_mode_refines_data_mode_add_sub :
    3 ≤ 10 ∧
    ((∀ agg, (deltaAggregator 10).applyAll [.add 5, .sub 7] = some (.ok agg) →
      agg.validateHistory 3 = some (.ok ()) →
      ∃ v, (dataAggregator 10 3).applyAll [.add 5, .sub 7] = some (.ok (dataAggregator 10 v)) ∧
        agg.readAndMaterialize (.ok (some 3)) 0 = some (.ok (v, dataAggregator 10 v))) ∧
    (∀ a, (dataAggregator 10 3).applyAll [.add 5, .sub 7] = some (.ok a) →
      ∃ agg, (deltaAggregator 10).applyAll [.add 5, .sub 7] = some (.ok agg) ∧
        agg.validateHistory 3 = some (.ok ()))) :=
  ⟨by decide, delta_mode_refines_data_mode 10 3 (by decide) [.add 5, .sub 7] 0⟩

end Aggregator

end CreditChain
