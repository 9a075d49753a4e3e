import CreditChain.Aggregator.DeltaChangeSet
import Mathlib.Data.Finset.Basic

/-!
# Multi-version data

`VersionedValue` and `VersionedData` of `versioned_data.rs`: for every key, the entries written
by the transactions of a block, keyed by `ShiftedTxnIndex` (the storage version at `0`,
transaction `i` at `i + 1`).  An entry is a resource write with the read dependencies recorded
on it, or an aggregator v1 delta with an optional shortcut to its materialized value.

A `BTreeMap` from shifted indices is a function to `Option`, and a `BTreeSet` of dependencies a
`Finset`.  `read` walks the entries below the reader from the highest down (`readBelow`, one
step per shifted index), accumulating deltas by `merge_with_previous_delta` until it meets a
write, a shortcut or the bottom.  Where the source panics (`expect`, `unreachable!`,
`panic!`) the model returns `none`.
-/

namespace CreditChain

/-- `StateValueMetadataInner`. -/
structure StateValueMetadataInner where
  slotDeposit : Nat
  bytesDeposit : Nat
  creationTimeUsecs : Nat
  deriving DecidableEq, Repr

/-- `StateValueMetadata`. -/
structure StateValueMetadata where
  inner : Option StateValueMetadataInner
  deriving DecidableEq, Repr

/-- What the multi-version data uses of a written value (`TransactionWrite`): its bytes read as
an aggregator value (`as_u128`: `none` for a deletion, an error when they are no `u128`), the
length of its bytes (`bytes().map(|b| b.len())`) and its metadata
(`as_state_value_metadata`). -/
class TransactionWrite (V : Type) where
  asU128 : V → Except Unit (Option Nat)
  bytesLen : V → Option Nat
  asStateValueMetadata : V → Option StateValueMetadata

/-- `ValueWithLayout`; `L` stands for `MoveTypeLayout`. -/
inductive ValueWithLayout (V L : Type)
  | rawFromStorage (value : V)
  | exchanged (value : V) (layout : Option L)
  deriving DecidableEq, Repr

/-- `extract_value_no_layout` (`none` where it panics on a layout). -/
def ValueWithLayout.extractValueNoLayout {V L : Type} : ValueWithLayout V L → Option V
  | .rawFromStorage value => some value
  | .exchanged value none => some value
  | .exchanged _ (some _) => none

/-- `EntryCell`. -/
inductive EntryCell (V L : Type)
  | resourceWrite (incarnation : Nat) (valueWithLayout : ValueWithLayout V L)
      (dependencies : Finset (Nat × Nat))
  | delta (op : DeltaOp) (shortcut : Option Nat)
  deriving DecidableEq

/-- `Entry`: a cell with its estimate flag (`FLAG_ESTIMATE` is `true`). -/
structure Entry (V L : Type) where
  value : EntryCell V L
  flag : Bool
  deriving DecidableEq

/-- `Entry::new`, with the flag `FLAG_DONE`. -/
def Entry.new {V L : Type} (value : EntryCell V L) : Entry V L := ⟨value, false⟩

/-- `Version`: a transaction index with an incarnation, `none` for the storage version. -/
abbrev Version := Option (Nat × Nat)

/-- `ShiftedTxnIndex::idx`: the transaction index of a shifted index, `none` for storage. -/
def shiftedIdx (shifted : Nat) : Option Nat :=
  if shifted > 0 then some (shifted - 1) else none

/-- `MVDataError`. -/
inductive MVDataError
  | uninitialized
  | unresolved (op : DeltaOp)
  | dependency (txnIdx : Nat)
  | deltaApplicationFailure
  deriving DecidableEq, Repr

/-- `MVDataOutput`. -/
inductive MVDataOutput (V L : Type)
  | resolved (value : Nat)
  | versioned (version : Version) (valueWithLayout : ValueWithLayout V L)
  deriving DecidableEq, Repr

/-- `VersionedValue`: entries by shifted index. -/
structure VersionedValue (V L : Type) where
  versionedMap : Nat → Option (Entry V L)

namespace VersionedValue

variable {V L : Type} [TransactionWrite V]

/-- The version a write at a shifted index is read at (`idx.idx().map(|idx| (idx, incarnation))`). -/
def versionAt (shifted incarnation : Nat) : Version :=
  (shiftedIdx shifted).map fun idx => (idx, incarnation)

/-- The accumulated delta applied to a resolved value, every failure a `DeltaApplicationFailure`. -/
def applyAccumulator (accumulator : Except Unit DeltaOp) (value : Nat) :
    Except MVDataError (MVDataOutput V L) :=
  (accumulator.mapError fun _ => MVDataError.deltaApplicationFailure) >>= fun a =>
    ((a.applyTo value).map .resolved).mapError fun _ => .deltaApplicationFailure

/-- The accumulator once the traversal meets a lower delta: the delta merged under it, or an
error, kept once a merge failed. -/
def mergeAccumulator (accumulator : Except Unit DeltaOp) (delta : DeltaOp) : Except Unit DeltaOp :=
  accumulator.bind fun a =>
    match a.mergeWithPreviousDelta delta with
    | .ok merged => .ok merged
    | .error _ => .error ()

/-- The traversal of `read` over the entries at shifted indices below `i`, highest first, with
the accumulator so far (`some (.error ())` once a merge failed).  Besides the outcome it returns
the shifted index of the write a read resolves to with no delta on top, where a BlockSTMv2
reader records its dependency. -/
def readBelow (versionedMap : Nat → Option (Entry V L)) :
    Nat → Option (Except Unit DeltaOp) →
      Option (Except MVDataError (MVDataOutput V L)) × Option Nat
  | 0, accumulator =>
    -- the write below the deltas has not been seen
    (some (match accumulator with
      | some (.ok accumulator) => .error (.unresolved accumulator)
      | some (.error ()) => .error .deltaApplicationFailure
      | none => .error .uninitialized), none)
  | i + 1, accumulator =>
    match versionedMap i with
    | none => readBelow versionedMap i accumulator
    | some entry =>
      if entry.flag then
        -- found a dependency; a dependency on the storage version panics
        ((shiftedIdx i).map fun idx => .error (.dependency idx), none)
      else
        match entry.value, accumulator with
        | .resourceWrite incarnation valueWithLayout _, none =>
          (some (.ok (.versioned (versionAt i incarnation) valueWithLayout)), some i)
        | .resourceWrite incarnation valueWithLayout _, some accumulator =>
          match valueWithLayout.extractValueNoLayout.map TransactionWrite.asU128 with
          | some (.ok none) =>
            -- a deletion takes precedence over the accumulated deltas and their errors
            (some (.ok (.versioned (versionAt i incarnation) valueWithLayout)), none)
          | some (.ok (some value)) => (some (applyAccumulator accumulator value), none)
          | _ => (none, none)
        | .delta delta maybeShortcut, some accumulator =>
          match maybeShortcut with
          | some shortcutValue => (some (applyAccumulator accumulator shortcutValue), none)
          | none =>
            -- a failed merge is recorded, and the traversal goes on
            readBelow versionedMap i (some (mergeAccumulator accumulator delta))
        | .delta delta maybeShortcut, none =>
          match maybeShortcut with
          | some shortcutValue => (some (.ok (.resolved shortcutValue)), none)
          | none => readBelow versionedMap i (some (.ok delta))

/-- With no entry below, the traversal ends where it began. -/
theorem readBelow_empty (n : Nat) :
    readBelow (fun _ => (none : Option (Entry V L))) n none = (some (.error .uninitialized), none) := by
  induction n with
  | zero => rfl
  | succ n ih => simpa [readBelow] using ih

/-- A read dependency recorded on a write (`dependencies.lock().insert(..)`). -/
def recordDependency (dependency : Nat × Nat) (entry : Entry V L) : Entry V L :=
  match entry.value with
  | .resourceWrite incarnation valueWithLayout dependencies =>
    ⟨.resourceWrite incarnation valueWithLayout (insert dependency dependencies), entry.flag⟩
  | .delta _ _ => entry

/-- `read`: the outcome at `reader_txn_idx` (`none` where the code panics); a BlockSTMv2 reader
(`maybe_reader_incarnation` set) records `(reader_txn_idx, incarnation)` at the write it
resolves to. -/
def read (self : VersionedValue V L) (readerTxnIdx : Nat) (maybeReaderIncarnation : Option Nat) :
    Option (Except MVDataError (MVDataOutput V L)) × VersionedValue V L :=
  let (result, recordAt) := readBelow self.versionedMap (readerTxnIdx + 1) none
  match maybeReaderIncarnation, recordAt with
  | some readerIncarnation, some shifted =>
    (result, ⟨Function.update self.versionedMap shifted
      ((self.versionedMap shifted).map (recordDependency (readerTxnIdx, readerIncarnation)))⟩)
  | _, _ => (result, self)

/-- The entry at a shifted index replaced. -/
def insertAt (self : VersionedValue V L) (shifted : Nat) (entry : Entry V L) : VersionedValue V L :=
  ⟨Function.update self.versionedMap shifted (some entry)⟩

/-- `write_impl`: the entry of `txn_idx` is replaced by the write; a write it replaces must have a
lower incarnation (the source asserts it). -/
def writeImpl (self : VersionedValue V L) (txnIdx incarnation : Nat) (value : ValueWithLayout V L)
    (dependencies : Finset (Nat × Nat)) : Option (VersionedValue V L) :=
  let prevEntry := self.versionedMap (txnIdx + 1)
  if prevEntry.all fun entry => match entry.value with
      | .resourceWrite prevIncarnation _ _ => decide (prevIncarnation < incarnation)
      | .delta _ _ => true then
    some (self.insertAt (txnIdx + 1) (.new (.resourceWrite incarnation value dependencies)))
  else none

omit [TransactionWrite V] in
/-- A write that goes through replaces the entry of its transaction. -/
theorem writeImpl_eq_some {self self' : VersionedValue V L} {txnIdx incarnation : Nat}
    {value : ValueWithLayout V L} {dependencies : Finset (Nat × Nat)}
    (h : self.writeImpl txnIdx incarnation value dependencies = some self') :
    self' = self.insertAt (txnIdx + 1) (.new (.resourceWrite incarnation value dependencies)) := by
  unfold writeImpl at h
  dsimp only at h
  split at h
  · exact (Option.some.inj h).symm
  · cases h

/-- `record_delta_shortcut` (`none` where the source panics: on a write, or on a different
shortcut than the recorded one). -/
def recordDeltaShortcut (entry : Entry V L) (value : Nat) : Option (Entry V L) :=
  match entry.value with
  | .delta deltaOp maybeShortcut =>
    if maybeShortcut.all (· = value) then some ⟨.delta deltaOp (some value), entry.flag⟩ else none
  | .resourceWrite _ _ _ => none

/-- `materialize_delta` on one key: `Ok` with the value the delta of `txn_idx` resolves to, recorded
as its shortcut, or `Err` with the delta when no base value lies below. -/
def materializeDelta (self : VersionedValue V L) (txnIdx : Nat) :
    Option (Except DeltaOp Nat × VersionedValue V L) :=
  -- `txn_idx + 1` makes sure the read includes the delta from `txn_idx`
  match (self.read (txnIdx + 1) none).1 with
  | some (.ok (.resolved value)) => do
    let entry ← self.versionedMap (txnIdx + 1)
    let entry ← recordDeltaShortcut entry value
    pure (.ok value, self.insertAt (txnIdx + 1) entry)
  | some (.error (.unresolved op)) => some (.error op, self)
  | _ => none

/-! ### Push validation (BlockSTMv2) -/

/-- `range(..=shifted).next_back()`: the entry at the highest shifted index up to `shifted`. -/
def lastAtOrBelow (versionedMap : Nat → Option (Entry V L)) : Nat → Option (Nat × Entry V L)
  | 0 => (versionedMap 0).map fun entry => (0, entry)
  | shifted + 1 =>
    match versionedMap (shifted + 1) with
    | some entry => some (shifted + 1, entry)
    | none => lastAtOrBelow versionedMap shifted

section LastAtOrBelow

variable {versionedMap : Nat → Option (Entry V L)} {shifted : Nat}

omit [TransactionWrite V] in
theorem lastAtOrBelow_zero (versionedMap : Nat → Option (Entry V L)) :
    lastAtOrBelow versionedMap 0 = (versionedMap 0).map fun entry => (0, entry) := rfl

omit [TransactionWrite V] in
theorem lastAtOrBelow_succ (versionedMap : Nat → Option (Entry V L)) (shifted : Nat) :
    lastAtOrBelow versionedMap (shifted + 1) =
      match versionedMap (shifted + 1) with
      | some entry => some (shifted + 1, entry)
      | none => lastAtOrBelow versionedMap shifted := rfl

omit [TransactionWrite V] in
theorem lastAtOrBelow_succ_of_some {entry : Entry V L} (h : versionedMap (shifted + 1) = some entry) :
    lastAtOrBelow versionedMap (shifted + 1) = some (shifted + 1, entry) := by
  rw [lastAtOrBelow_succ, h]

omit [TransactionWrite V] in
theorem lastAtOrBelow_succ_of_none (h : versionedMap (shifted + 1) = none) :
    lastAtOrBelow versionedMap (shifted + 1) = lastAtOrBelow versionedMap shifted := by
  rw [lastAtOrBelow_succ, h]

end LastAtOrBelow

/-- `compare_values_and_layouts`: metadata only, or the values with no layout on either side. -/
def compareValuesAndLayouts [DecidableEq V] (onlyCompareMetadata : Bool) (prevValue newValue : V)
    (prevMaybeLayout newMaybeLayout : Option L) : Bool :=
  if onlyCompareMetadata then
    TransactionWrite.asStateValueMetadata prevValue == TransactionWrite.asStateValueMetadata newValue
  else
    -- layouts pass validation only if they are both `None`
    prevMaybeLayout.isNone && newMaybeLayout.isNone && decide (prevValue = newValue)

/-- `split_off_affected_read_dependencies`: the dependencies of readers above `txn_idx`, split off
the write at or below it, whether they stay valid with the new value, and the map without them. -/
def splitOffAffectedReadDependencies [DecidableEq V] (self : VersionedValue V L)
    (onlyCompareMetadata : Bool) (txnIdx : Nat) (newData : V) (newMaybeLayout : Option L) :
    Finset (Nat × Nat) × Bool × VersionedValue V L :=
  match lastAtOrBelow self.versionedMap (txnIdx + 1) with
  | some (shifted, entry) =>
    match entry.value with
    | .resourceWrite incarnation valueWithLayout dependencies =>
      -- `split_off(&(txn_idx + 1, 0))`: the readers above `txn_idx`
      let affectedDeps := dependencies.filter fun dep => txnIdx + 1 ≤ dep.1
      -- a non-exchanged value fails validation by default
      let stillValid := decide affectedDeps.Nonempty && match valueWithLayout with
        | .exchanged previousEntryValue previousEntryMaybeLayout =>
          compareValuesAndLayouts onlyCompareMetadata previousEntryValue newData
            previousEntryMaybeLayout newMaybeLayout
        | .rawFromStorage _ => false
      (affectedDeps, stillValid, self.insertAt shifted ⟨.resourceWrite incarnation valueWithLayout
        (dependencies.filter fun dep => dep.1 < txnIdx + 1), entry.flag⟩)
    | .delta _ _ => (∅, false, self)
  | none => (∅, false, self)

/-- `handle_removed_dependencies`: the dependencies of a removed write move to the next lower
write when its value validates against the removed one, and are returned otherwise (`none` where
the source asserts that the removed entry is gone). -/
def handleRemovedDependencies [DecidableEq V] (self : VersionedValue V L)
    (onlyCompareMetadata : Bool) (txnIdx : Nat) (dependencies : Finset (Nat × Nat))
    (removedData : V) (removedMaybeLayout : Option L) :
    Option (Finset (Nat × Nat) × VersionedValue V L) :=
  if dependencies.Nonempty then
    match lastAtOrBelow self.versionedMap (txnIdx + 1) with
    | some (shifted, nextEntry) =>
      if shifted = txnIdx + 1 then none
      else
        match nextEntry.value with
        | .resourceWrite incarnation (.exchanged entryValue entryMaybeLayout) nextDeps =>
          if compareValuesAndLayouts onlyCompareMetadata entryValue removedData entryMaybeLayout
              removedMaybeLayout then
            some (∅, self.insertAt shifted ⟨.resourceWrite incarnation
              (.exchanged entryValue entryMaybeLayout) (nextDeps ∪ dependencies), nextEntry.flag⟩)
          else some (dependencies, self)
        | _ => some (dependencies, self)
    | none => some (dependencies, self)
  else some (dependencies, self)

/-- `remove_v2` on one key: the invalidated dependencies of the removed write, or the code
invariant error for a missing entry (whose message the source formats with the key and index);
`none` where the source panics. -/
def removeV2 [DecidableEq V] (self : VersionedValue V L) (onlyCompareMetadata : Bool)
    (txnIdx : Nat) : Option (Except PanicError (Finset (Nat × Nat)) × VersionedValue V L) :=
  match self.versionedMap (txnIdx + 1) with
  | none => some (.error (codeInvariantError "Entry for key / idx must exist to be deleted"), self)
  | some removedEntry =>
    let removed : VersionedValue V L := ⟨Function.update self.versionedMap (txnIdx + 1) none⟩
    match removedEntry.value with
    | .resourceWrite _ (.rawFromStorage _) _ => none
    | .resourceWrite _ (.exchanged data layout) dependencies =>
      (removed.handleRemovedDependencies onlyCompareMetadata txnIdx dependencies data layout).map
        fun (deps, v) => (.ok deps, v)
    | .delta _ _ => some (.ok ∅, removed)

/-- `set_base_value` on one key (`none` where the source asserts); an exchanged value replaces a
raw one and keeps its dependencies. -/
def setBaseValue (self : VersionedValue V L) (baseValueWithLayout : ValueWithLayout V L) :
    Option (VersionedValue V L) :=
  match self.versionedMap 0 with
  | none => some (self.insertAt 0 (.new (.resourceWrite 0 baseValueWithLayout ∅)))
  | some o =>
    match o.value with
    | .resourceWrite incarnation existingValueWithLayout dependencies =>
      if incarnation ≠ 0 then none
      else
        match existingValueWithLayout, baseValueWithLayout with
        | .rawFromStorage existingValue, .rawFromStorage baseValue =>
          if TransactionWrite.bytesLen baseValue = TransactionWrite.bytesLen existingValue then
            some self
          else none
        | .exchanged _ _, .rawFromStorage _ => some self
        | .rawFromStorage _, .exchanged _ _ =>
          -- received more info: update, but keep the same dependencies
          some (self.insertAt 0 (.new (.resourceWrite 0 baseValueWithLayout dependencies)))
        | .exchanged existingValue existingLayout, .exchanged baseValue baseLayout =>
          if existingLayout.isSome ≠ baseLayout.isSome then none
          else if existingLayout.isNone ∧
              TransactionWrite.bytesLen existingValue ≠ TransactionWrite.bytesLen baseValue then none
          else some self
    | .delta _ _ => some self

/-- `write_v2` on one key: the write keeps the affected dependencies when they validate against
its value, and returns them otherwise. -/
def writeV2 [DecidableEq V] (self : VersionedValue V L) (onlyCompareMetadata : Bool)
    (txnIdx incarnation : Nat) (data : V) (maybeLayout : Option L) :
    Option (Finset (Nat × Nat) × VersionedValue V L) :=
  let (affectedDependencies, validationPassed, self) :=
    self.splitOffAffectedReadDependencies onlyCompareMetadata txnIdx data maybeLayout
  let (depsToRetain, depsToReturn) :=
    if validationPassed then (affectedDependencies, ∅) else (∅, affectedDependencies)
  (self.writeImpl txnIdx incarnation (.exchanged data maybeLayout) depsToRetain).map
    fun self => (depsToReturn, self)

end VersionedValue

/-- `VersionedData`: a versioned value for every key present. -/
structure VersionedData (K V L : Type) where
  values : K → Option (VersionedValue V L)

namespace VersionedData

variable {K V L : Type} [DecidableEq K] [TransactionWrite V]

/-- `values.entry(key).or_default()`. -/
def entryOrDefault (self : VersionedData K V L) (key : K) : VersionedValue V L :=
  (self.values key).getD ⟨fun _ => none⟩

omit [DecidableEq K] [TransactionWrite V] in
theorem entryOrDefault_eq (self : VersionedData K V L) (key : K) :
    self.entryOrDefault key = (self.values key).getD ⟨fun _ => none⟩ := rfl

/-- The versioned value of a key replaced. -/
def setValue (self : VersionedData K V L) (key : K) (v : VersionedValue V L) : VersionedData K V L :=
  ⟨Function.update self.values key (some v)⟩

omit [TransactionWrite V] in
@[simp] theorem values_setValue (self : VersionedData K V L) (key : K) (v : VersionedValue V L) :
    (self.setValue key v).values key = some v := by
  simp [setValue]

omit [TransactionWrite V] in
@[simp] theorem entryOrDefault_setValue (self : VersionedData K V L) (key : K)
    (v : VersionedValue V L) : (self.setValue key v).entryOrDefault key = v := by
  rw [entryOrDefault_eq, values_setValue, Option.getD_some]

/-- `add_delta`. -/
def addDelta (self : VersionedData K V L) (key : K) (txnIdx : Nat) (delta : DeltaOp) :
    VersionedData K V L :=
  self.setValue key ((self.entryOrDefault key).insertAt (txnIdx + 1) (.new (.delta delta none)))

/-- `write`: an exchanged value with no dependencies. -/
def write (self : VersionedData K V L) (key : K) (txnIdx incarnation : Nat) (data : V)
    (maybeLayout : Option L) : Option (VersionedData K V L) :=
  ((self.entryOrDefault key).writeImpl txnIdx incarnation (.exchanged data maybeLayout) ∅).map
    (self.setValue key)

/-- `fetch_data_no_record`. -/
def fetchDataNoRecord (self : VersionedData K V L) (key : K) (txnIdx : Nat) :
    Option (Except MVDataError (MVDataOutput V L)) :=
  (self.values key).elim (some (.error .uninitialized)) fun v => (v.read txnIdx none).1

omit [DecidableEq K] in
/-- A read of a key reads its versioned value, an absent key as an empty one. -/
theorem fetchDataNoRecord_eq (self : VersionedData K V L) (key : K) (txnIdx : Nat) :
    self.fetchDataNoRecord key txnIdx = ((self.entryOrDefault key).read txnIdx none).1 := by
  cases h : self.values key with
  | none =>
    simp [fetchDataNoRecord, entryOrDefault_eq, h, VersionedValue.read,
      VersionedValue.readBelow_empty]
  | some v => simp [fetchDataNoRecord, entryOrDefault_eq, h]

/-- `materialize_delta` (the key must be present). -/
def materializeDelta (self : VersionedData K V L) (key : K) (txnIdx : Nat) :
    Option (Except DeltaOp Nat × VersionedData K V L) := do
  let v ← self.values key
  let (result, v) ← v.materializeDelta txnIdx
  pure (result, self.setValue key v)

end VersionedData

end CreditChain
