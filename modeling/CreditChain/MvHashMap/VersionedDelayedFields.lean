import CreditChain.Aggregator.DeltaChangeSet

/-!
# Multi-version delayed fields

`VersionedDelayedFields` of `versioned_delayed_fields.rs`: for every delayed field id, the entries
written by the transactions of a block, and the index of the next transaction to commit.  An entry
is a value, a change to apply on a value below it (`DelayedApplyEntry` of `delayed_change.rs`), or
an estimate left by an aborted incarnation.

A `BTreeMap` from transaction indices is the list of its pairs, with their increasing order as a
field; `range(0..i)` walked by `next_back` is `rangeBelow`, highest first.  `read` resolves an
aggregator's deltas down to a value (`apply_aggregator_change_suffix`) and a snapshot's change
through the field it was taken from (`read_checked_depth`).  `try_commit` turns the entries of the
committed transaction into values in three passes: aggregator deltas first, then snapshot deltas
(from the base aggregator's value before the transaction), then derived strings (from the base
snapshot's value after it).

Where the source panics (`expect`, `unreachable!`, `assert!`) the model returns `none`.  Messages
built by `format!` keep their text without the `Debug` renderings.  Transaction indices are `Nat`.
-/

namespace CreditChain.DelayedFields

/-- `DelayedFieldValue`. -/
inductive DelayedFieldValue
  | aggregator (value : Nat)
  | snapshot (value : Nat)
  | derived (bytes : List UInt8)
  deriving DecidableEq, Repr

namespace DelayedFieldValue

/-- `into_aggregator_value`. -/
def intoAggregatorValue : DelayedFieldValue → Except PanicError Nat
  | aggregator value => .ok value
  | snapshot _ => .error (codeInvariantError "Tried calling into_aggregator_value on Snapshot value")
  | derived _ =>
    .error (codeInvariantError "Tried calling into_aggregator_value on String SnapshotValue")

/-- `into_snapshot_value`. -/
def intoSnapshotValue : DelayedFieldValue → Except PanicError Nat
  | snapshot value => .ok value
  | aggregator _ =>
    .error (codeInvariantError "Tried calling into_snapshot_value on Aggregator value")
  | derived _ =>
    .error (codeInvariantError "Tried calling into_snapshot_value on String SnapshotValue")

end DelayedFieldValue

/-- `SnapshotToStringFormula`. -/
inductive SnapshotToStringFormula
  | concat (prefixBytes suffixBytes : List UInt8)
  deriving DecidableEq, Repr

/-- `SnapshotToStringFormula::apply_to`: the base in decimal between the two byte strings. -/
def SnapshotToStringFormula.applyTo : SnapshotToStringFormula → Nat → List UInt8
  | concat prefixBytes suffixBytes, base =>
    prefixBytes ++ (Nat.toDigits 10 base).map (fun c => c.toNat.toUInt8) ++ suffixBytes

/-- `DelayedApplyEntry`. -/
inductive DelayedApplyEntry (K : Type)
  | aggregatorDelta (delta : DeltaOp)
  | snapshotDelta (baseAggregator : K) (delta : DeltaOp)
  | snapshotDerived (baseSnapshot : K) (formula : SnapshotToStringFormula)
  deriving DecidableEq, Repr

/-- `ApplyBase`: the base is read at the start (`Previous`) or at the end (`Current`) of the
transaction. -/
inductive ApplyBase (K : Type)
  | previous (id : K)
  | current (id : K)
  deriving DecidableEq, Repr

namespace DelayedApplyEntry

variable {K : Type}

/-- `get_apply_base_id_option`. -/
def getApplyBaseIdOption : DelayedApplyEntry K → Option (ApplyBase K)
  | aggregatorDelta _ => none
  | snapshotDelta baseAggregator _ => some (.previous baseAggregator)
  | snapshotDerived baseSnapshot _ => some (.current baseSnapshot)

theorem getApplyBaseIdOption_aggregatorDelta (delta : DeltaOp) :
    (aggregatorDelta delta : DelayedApplyEntry K).getApplyBaseIdOption = none := rfl

theorem getApplyBaseIdOption_snapshotDelta (baseAggregator : K) (delta : DeltaOp) :
    (snapshotDelta baseAggregator delta).getApplyBaseIdOption = some (.previous baseAggregator) :=
  rfl

theorem getApplyBaseIdOption_snapshotDerived (baseSnapshot : K) (formula : SnapshotToStringFormula) :
    (snapshotDerived baseSnapshot formula).getApplyBaseIdOption = some (.current baseSnapshot) :=
  rfl

/-- `apply_to_base`. -/
def applyToBase : DelayedApplyEntry K → DelayedFieldValue →
    Except (PanicOr DelayedFieldsSpeculativeError) DelayedFieldValue
  | aggregatorDelta delta, baseValue => do
    let value ← baseValue.intoAggregatorValue.mapError PanicOr.ofPanicError
    return .aggregator (← delta.applyTo value)
  | snapshotDelta _ delta, baseValue => do
    let value ← baseValue.intoAggregatorValue.mapError PanicOr.ofPanicError
    return .snapshot (← delta.applyTo value)
  | snapshotDerived _ formula, baseValue => do
    let value ← baseValue.intoSnapshotValue.mapError PanicOr.ofPanicError
    return .derived (formula.applyTo value)

end DelayedApplyEntry

/-- `EstimatedEntry`: an estimate with the change of the entry it replaced, if it had one. -/
inductive EstimatedEntry (K : Type)
  | noBypass
  | bypass (apply : DelayedApplyEntry K)
  deriving DecidableEq, Repr

/-- `VersionEntry`. -/
inductive VersionEntry (K : Type)
  | value (value : DelayedFieldValue) (maybeApply : Option (DelayedApplyEntry K))
  | apply (apply : DelayedApplyEntry K)
  | estimate (estimated : EstimatedEntry K)
  deriving DecidableEq, Repr

/-- `MVDelayedFieldsError`. -/
inductive MVDelayedFieldsError
  | notFound
  | dependency (txnIdx : Nat)
  | deltaApplicationFailure
  deriving DecidableEq, Repr

/-- `MVDelayedFieldsError::from_panic_or` (the model's `DelayedFieldsSpeculativeError` has no
`NotFound`). -/
def MVDelayedFieldsError.fromPanicOr :
    PanicOr DelayedFieldsSpeculativeError → PanicOr MVDelayedFieldsError
  | .codeInvariantError message => .codeInvariantError message
  | .or _ => .or .deltaApplicationFailure

/-- `VersionedRead`: a value, or a change to apply to another field read at a transaction index. -/
inductive VersionedRead (K : Type)
  | value (value : DelayedFieldValue)
  | dependentApply (id : K) (txnIdx : Nat) (apply : DelayedApplyEntry K)
  deriving DecidableEq, Repr

/-- `VersionedValue`: the entries in increasing order of transaction index, the value before the
block (`none` for a field created in it) and whether reads may go through estimated deltas. -/
structure VersionedValue (K : Type) where
  versionedMap : List (Nat × VersionEntry K)
  sorted : (versionedMap.map Prod.fst).Pairwise (· < ·)
  baseValue : Option DelayedFieldValue
  readEstimateDeltas : Bool

namespace VersionedValue

variable {K : Type}

/-- `versioned_map.get(&txn_idx)`. -/
def get (self : VersionedValue K) (txnIdx : Nat) : Option (VersionEntry K) :=
  self.versionedMap.lookup txnIdx

/-- `versioned_map.range(0..txn_idx)` as `next_back` walks it: the entries below `txn_idx`,
highest first. -/
def rangeBelow (self : VersionedValue K) (txnIdx : Nat) : List (Nat × VersionEntry K) :=
  (self.versionedMap.filter fun p => p.1 < txnIdx).reverse

theorem rangeBelow_eq (self : VersionedValue K) (txnIdx : Nat) :
    self.rangeBelow txnIdx = (self.versionedMap.filter fun p => p.1 < txnIdx).reverse := rfl

/-- A pair with its entry replaced when its index is `txnIdx`. -/
def replaceAt (txnIdx : Nat) (entry : VersionEntry K) (p : Nat × VersionEntry K) :
    Nat × VersionEntry K :=
  if p.1 = txnIdx then (p.1, entry) else p

theorem map_fst_replaceAt (txnIdx : Nat) (entry : VersionEntry K) (l : List (Nat × VersionEntry K)) :
    (l.map (replaceAt txnIdx entry)).map Prod.fst = l.map Prod.fst := by
  rw [List.map_map]
  congr 1
  funext p
  simp only [Function.comp_apply, replaceAt]
  split <;> rfl

/-- `Entry::Occupied::insert`: the entry at `txnIdx` replaced, the indices unchanged. -/
def setEntry (self : VersionedValue K) (txnIdx : Nat) (entry : VersionEntry K) : VersionedValue K where
  versionedMap := self.versionedMap.map (replaceAt txnIdx entry)
  sorted := (map_fst_replaceAt txnIdx entry self.versionedMap).symm ▸ self.sorted
  baseValue := self.baseValue
  readEstimateDeltas := self.readEstimateDeltas

/-- `insert_final_value`: the entry at `txnIdx` becomes the value; it must be an apply or the same
value. -/
def insertFinalValue (self : VersionedValue K) (txnIdx : Nat) (value : DelayedFieldValue) :
    Option (VersionedValue K) :=
  match self.get txnIdx with
  | some (.value v _) => if v = value then some (self.setEntry txnIdx (.value value none)) else none
  | some (.apply _) => some (self.setEntry txnIdx (.value value none))
  | _ => none

/-- `read_latest_predicted_value`: the value of the latest entry below `next_idx_to_commit`, or
else the base value, or else the value of the lowest entry, as a prediction. -/
def readLatestPredictedValue (self : VersionedValue K) (nextIdxToCommit : Nat) :
    Option (Except MVDelayedFieldsError DelayedFieldValue) :=
  match (self.rangeBelow nextIdxToCommit).head? with
  | none =>
    match self.baseValue with
    | some value => some (.ok value)
    | none =>
      match self.versionedMap.head? with
      | some (_, .value v _) => some (.ok v)
      | _ => some (.error .notFound)
  | some (_, .value v _) => some (.ok v)
  -- an apply or an estimate below the commit index
  | some _ => none

/-- An accumulated aggregator delta applied to an aggregator value. -/
def resolveWith (accumulator : DeltaOp) (v : Nat) :
    Except (PanicOr MVDelayedFieldsError) (VersionedRead K) :=
  ((accumulator.applyTo v).mapError MVDelayedFieldsError.fromPanicOr).map
    fun value => .value (.aggregator value)

/-- The loop of `apply_aggregator_change_suffix` over the entries left below, highest first, with
the accumulated delta. -/
def suffixLoop (self : VersionedValue K) : List (Nat × VersionEntry K) → DeltaOp →
    Option (Except (PanicOr MVDelayedFieldsError) (VersionedRead K))
  | [], accumulator =>
    match self.baseValue with
    | none => some (.error (.or .notFound))
    | some (.aggregator v) => some (resolveWith accumulator v)
    | some _ => some (.error (.ofPanicError (codeInvariantError
        "Found non-DelayedFieldValue::Aggregator base value for aggregator with delta")))
  | (idx, entry) :: iter, accumulator =>
    match entry, self.readEstimateDeltas with
    | .value (.aggregator v) _, _ => some (resolveWith accumulator v)
    | .value _ _, _ => none
    | .apply (.aggregatorDelta delta), _ | .estimate (.bypass (.aggregatorDelta delta)), true =>
      match accumulator.mergeWithPreviousDelta delta with
      | .ok merged => suffixLoop self iter merged
      | .error e => some (.error (MVDelayedFieldsError.fromPanicOr e))
    | .estimate .noBypass, _ | .estimate _, false => some (.error (.or (.dependency idx)))
    | .apply _, _ | .estimate (.bypass _), true => none

theorem suffixLoop_nil (self : VersionedValue K) (accumulator : DeltaOp) :
    self.suffixLoop [] accumulator =
      match self.baseValue with
      | none => some (.error (.or .notFound))
      | some (.aggregator v) => some (resolveWith accumulator v)
      | some _ => some (.error (.ofPanicError (codeInvariantError
          "Found non-DelayedFieldValue::Aggregator base value for aggregator with delta"))) := rfl

theorem suffixLoop_cons_value (self : VersionedValue K) (idx : Nat) (value : DelayedFieldValue)
    (maybeApply : Option (DelayedApplyEntry K)) (iter : List (Nat × VersionEntry K))
    (accumulator : DeltaOp) :
    self.suffixLoop ((idx, .value value maybeApply) :: iter) accumulator =
      match value with
      | .aggregator v => some (resolveWith accumulator v)
      | _ => none := by
  cases value <;> simp [suffixLoop]

/-- `apply_aggregator_change_suffix`: only an aggregator delta is accepted. -/
def applyAggregatorChangeSuffix (self : VersionedValue K) (iter : List (Nat × VersionEntry K))
    (suffix : DelayedApplyEntry K) :
    Option (Except (PanicOr MVDelayedFieldsError) (VersionedRead K)) :=
  match suffix with
  | .aggregatorDelta delta => self.suffixLoop iter delta
  | _ => none

theorem applyAggregatorChangeSuffix_aggregatorDelta (self : VersionedValue K)
    (iter : List (Nat × VersionEntry K)) (delta : DeltaOp) :
    self.applyAggregatorChangeSuffix iter (.aggregatorDelta delta) = self.suffixLoop iter delta :=
  rfl

/-- `VersionedValue::read` at `txn_idx`: the latest entry below it decides. -/
def read (self : VersionedValue K) (txnIdx : Nat) :
    Option (Except (PanicOr MVDelayedFieldsError) (VersionedRead K)) :=
  match self.rangeBelow txnIdx with
  | [] => some (match self.baseValue with
    | some value => .ok (.value value)
    | none => .error (.or .notFound))
  | (idx, entry) :: iter =>
    match entry, self.readEstimateDeltas with
    | .value v _, _ => some (.ok (.value v))
    | .apply apply, _ | .estimate (.bypass apply), true =>
      match apply.getApplyBaseIdOption with
      | none => self.applyAggregatorChangeSuffix iter apply
      | some (.previous baseId) => some (.ok (.dependentApply baseId idx apply))
      | some (.current baseId) => some (.ok (.dependentApply baseId (idx + 1) apply))
    | .estimate .noBypass, _ | .estimate _, false => some (.error (.or (.dependency idx)))

end VersionedValue

/-- `VersionedDelayedFields`, without the approximate size of the base values. -/
structure VersionedDelayedFields (K : Type) where
  values : K → Option (VersionedValue K)
  nextIdxToCommit : Nat

/-- `CommitError`. -/
inductive CommitError
  | codeInvariantError (message : String)
  | reExecutionNeeded (message : String)
  deriving DecidableEq, Repr

namespace VersionedDelayedFields

variable {K : Type} [DecidableEq K]

/-- The versioned value of `id` replaced (the write through `get_mut`). -/
def setValue (self : VersionedDelayedFields K) (id : K) (versionedValue : VersionedValue K) :
    VersionedDelayedFields K :=
  { self with values := Function.update self.values id (some versionedValue) }

/-- `read_checked_depth`: a dependent apply is resolved by reading its base field, at most three
levels down. -/
def readCheckedDepth (self : VersionedDelayedFields K) (id : K) (txnIdx curDepth : Nat) :
    Option (Except (PanicOr MVDelayedFieldsError) DelayedFieldValue) :=
  match self.values id with
  | none => some (.error (.or .notFound))
  | some versionedValue =>
    match versionedValue.read txnIdx with
    | none => none
    | some (.error e) => some (.error e)
    | some (.ok (.value v)) => some (.ok v)
    | some (.ok (.dependentApply dependentId dependentTxnIdx apply)) =>
      if dependentId = id then
        some (.error (.ofPanicError (codeInvariantError "ID of dependent apply is same as self")))
      else if curDepth > 2 then
        some (.error (.ofPanicError (codeInvariantError "Recursive depth for read()")))
      else
        match self.readCheckedDepth dependentId dependentTxnIdx (curDepth + 1) with
        | none => none
        | some (.error e) => some (.error e)
        | some (.ok sourceValue) =>
          some ((apply.applyToBase sourceValue).mapError MVDelayedFieldsError.fromPanicOr)
termination_by 3 - curDepth
decreasing_by omega

theorem readCheckedDepth_eq (self : VersionedDelayedFields K) (id : K) (txnIdx curDepth : Nat) :
    self.readCheckedDepth id txnIdx curDepth =
      match self.values id with
      | none => some (.error (.or .notFound))
      | some versionedValue =>
        match versionedValue.read txnIdx with
        | none => none
        | some (.error e) => some (.error e)
        | some (.ok (.value v)) => some (.ok v)
        | some (.ok (.dependentApply dependentId dependentTxnIdx apply)) =>
          if dependentId = id then
            some (.error (.ofPanicError (codeInvariantError "ID of dependent apply is same as self")))
          else if curDepth > 2 then
            some (.error (.ofPanicError (codeInvariantError "Recursive depth for read()")))
          else
            match self.readCheckedDepth dependentId dependentTxnIdx (curDepth + 1) with
            | none => none
            | some (.error e) => some (.error e)
            | some (.ok sourceValue) =>
              some ((apply.applyToBase sourceValue).mapError MVDelayedFieldsError.fromPanicOr) := by
  rw [readCheckedDepth]

/-- `TVersionedDelayedFieldView::read`. -/
def read (self : VersionedDelayedFields K) (id : K) (txnIdx : Nat) :
    Option (Except (PanicOr MVDelayedFieldsError) DelayedFieldValue) :=
  self.readCheckedDepth id txnIdx 0

theorem read_eq (self : VersionedDelayedFields K) (id : K) (txnIdx : Nat) :
    self.read id txnIdx = self.readCheckedDepth id txnIdx 0 := rfl

/-- The `new_entry` of the first pass of `try_commit` for the entry of a field at
`idx_to_commit`: the final value to insert now, if any.  Snapshot entries wait for the later
passes. -/
def firstPassNewEntry (versionedValue : VersionedValue K) (idxToCommit : Nat) :
    VersionEntry K → Option (Except CommitError (Option DelayedFieldValue))
  | .value _ none => some (.ok none)
  | .value v (some _) => some (.ok (some v))
  | .apply (.aggregatorDelta delta) =>
    match versionedValue.readLatestPredictedValue idxToCommit with
    | none => none
    | some (.error _) => some (.error (.codeInvariantError
        "Cannot read latest committed value for Apply(AggregatorDelta) during commit: "))
    | some (.ok (.aggregator base)) =>
      match delta.applyTo base with
      | .error _ => some (.error (.reExecutionNeeded "Failed to apply delta to base: "))
      | .ok newValue => some (.ok (some (.aggregator newValue)))
    | some (.ok _) => some (.error (.codeInvariantError
        "Cannot apply delta to non-DelayedField::Aggregator"))
  | .apply (.snapshotDelta _ _) => some (.ok none)
  | .apply (.snapshotDerived _ _) => some (.ok none)
  | .estimate _ => some (.error (.codeInvariantError "Cannot commit an estimate"))

/-- What the first pass queues in `todo_deltas` for an entry. -/
def todoDeltaOf (id : K) : VersionEntry K → List (K × K × DeltaOp)
  | .apply (.snapshotDelta baseAggregator delta) => [(id, baseAggregator, delta)]
  | _ => []

/-- What the first pass queues in `todo_derived` for an entry. -/
def todoDerivedOf (id : K) : VersionEntry K → List (K × K × SnapshotToStringFormula)
  | .apply (.snapshotDerived baseSnapshot formula) => [(id, baseSnapshot, formula)]
  | _ => []

/-- The first pass of `try_commit` over `ids_iter`: values are finalized, aggregator deltas applied
to the value before the transaction, and snapshots queued. -/
def commitFirstPass (idxToCommit : Nat) : VersionedDelayedFields K → List K →
    List (K × K × DeltaOp) → List (K × K × SnapshotToStringFormula) →
    Option (VersionedDelayedFields K ×
      Except CommitError (List (K × K × DeltaOp) × List (K × K × SnapshotToStringFormula)))
  | self, [], todoDeltas, todoDerived => some (self, .ok (todoDeltas, todoDerived))
  | self, id :: ids, todoDeltas, todoDerived => do
    let versionedValue ← self.values id
    let entryToCommit ← versionedValue.get idxToCommit
    match ← firstPassNewEntry versionedValue idxToCommit entryToCommit with
    | .error e => some (self, .error e)
    | .ok none =>
      commitFirstPass idxToCommit self ids (todoDeltas ++ todoDeltaOf id entryToCommit)
        (todoDerived ++ todoDerivedOf id entryToCommit)
    | .ok (some newEntry) => do
      let versionedValue ← versionedValue.insertFinalValue idxToCommit newEntry
      commitFirstPass idxToCommit (self.setValue id versionedValue) ids todoDeltas todoDerived

theorem commitFirstPass_cons (idxToCommit : Nat) (self : VersionedDelayedFields K) (id : K)
    (ids : List K) (todoDeltas : List (K × K × DeltaOp))
    (todoDerived : List (K × K × SnapshotToStringFormula)) :
    commitFirstPass idxToCommit self (id :: ids) todoDeltas todoDerived =
      (self.values id).bind fun versionedValue =>
        (versionedValue.get idxToCommit).bind fun entryToCommit =>
          (firstPassNewEntry versionedValue idxToCommit entryToCommit).bind fun
          | .error e => some (self, .error e)
          | .ok none =>
            commitFirstPass idxToCommit self ids (todoDeltas ++ todoDeltaOf id entryToCommit)
              (todoDerived ++ todoDerivedOf id entryToCommit)
          | .ok (some newEntry) =>
            (versionedValue.insertFinalValue idxToCommit newEntry).bind fun versionedValue =>
              commitFirstPass idxToCommit (self.setValue id versionedValue) ids todoDeltas
                todoDerived := rfl

/-- A later pass of `try_commit` (over `todo_deltas`, then over `todo_derived`): the value of each
queued field's base, read at `readIdx`, goes through `compute` to the field's final value.  The
two loops of the source are the same but for `readIdx` and `compute`, and share their messages. -/
def commitQueued {α : Type} (idxToCommit readIdx : Nat)
    (compute : α → DelayedFieldValue → Except CommitError DelayedFieldValue) :
    VersionedDelayedFields K → List (K × K × α) →
      Option (VersionedDelayedFields K × Except CommitError Unit)
  | self, [] => some (self, .ok ())
  | self, (id, baseId, change) :: todo =>
    match self.values baseId with
    | none => some (self, .error (.codeInvariantError
        "Cannot find base_aggregator for Apply(SnapshotDelta) during commit"))
    | some baseValue =>
      match baseValue.readLatestPredictedValue readIdx with
      | none => none
      | some (.error _) => some (self, .error (.codeInvariantError
          "Cannot read latest committed value for base aggregator for ApplySnapshotDelta) during commit: "))
      | some (.ok prevValue) =>
        match compute change prevValue with
        | .error e => some (self, .error e)
        | .ok newEntry => do
          let versionedValue ← self.values id
          let versionedValue ← versionedValue.insertFinalValue idxToCommit newEntry
          commitQueued idxToCommit readIdx compute (self.setValue id versionedValue) todo

/-- The final value of a snapshot delta from its base aggregator's value. -/
def snapshotDeltaEntry (delta : DeltaOp) : DelayedFieldValue → Except CommitError DelayedFieldValue
  | .aggregator base =>
    match delta.applyTo base with
    | .error _ => .error (.reExecutionNeeded "Failed to apply delta to base: ")
    | .ok newValue => .ok (.snapshot newValue)
  | _ => .error (.codeInvariantError "Cannot apply delta to non-DelayedField::Aggregator")

/-- The final value of a derived string from its base snapshot's value. -/
def derivedEntry (formula : SnapshotToStringFormula) :
    DelayedFieldValue → Except CommitError DelayedFieldValue
  | .snapshot base => .ok (.derived (formula.applyTo base))
  | _ => .error (.codeInvariantError "Cannot apply delta to non-DelayedField::Aggregator")

/-- `try_commit`: the state after the call (changed even when it fails part way) and its result;
`none` where it panics. -/
def tryCommit (self : VersionedDelayedFields K) (idxToCommit : Nat) (ids : List K) :
    Option (VersionedDelayedFields K × Except CommitError Unit) :=
  if idxToCommit ≠ self.nextIdxToCommit then
    some (self, .error (.codeInvariantError "idx_to_commit must be next_idx_to_commit"))
  else
    match commitFirstPass idxToCommit self ids [] [] with
    | none => none
    | some (self, .error e) => some (self, .error e)
    | some (self, .ok (todoDeltas, todoDerived)) =>
      -- snapshot deltas read the base aggregator before the transaction
      match commitQueued idxToCommit idxToCommit snapshotDeltaEntry self todoDeltas with
      | none => none
      | some (self, .error e) => some (self, .error e)
      | some (self, .ok ()) =>
        -- derived strings read the base snapshot after it, committed just above
        match commitQueued idxToCommit (idxToCommit + 1) derivedEntry self todoDerived with
        | none => none
        | some (self, .error e) => some (self, .error e)
        | some (self, .ok ()) =>
          if idxToCommit = self.nextIdxToCommit then
            some ({ self with nextIdxToCommit := self.nextIdxToCommit + 1 }, .ok ())
          else none

end VersionedDelayedFields

end CreditChain.DelayedFields
