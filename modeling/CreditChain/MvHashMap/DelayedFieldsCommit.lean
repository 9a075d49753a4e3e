import CreditChain.MvHashMap.VersionedDelayedFields

/-!
# `try_commit` of the multi-version delayed fields

`VersionedDelayedFields::try_commit` turns the entries of the transaction at the commit index into
values.  The doc comment of `VersionedDelayedFields` says what its callers keep: below the commit
index every entry is a value, and each id holds one kind of change.  In such a state, when every
field the committed transaction changed reads to a value at the next index and no entry at the
commit index is an estimate:

* `tryCommit_materializes_reads`: the commit succeeds, moves the commit index by one, and replaces
  the entry of every field it lists by exactly the value a read at the next index returned before;
* `tryCommit_keeps_reads`: no read of any field at any index returns anything else after the commit
  than before.  A read through a committed aggregator delta now applies the deltas above it to the
  committed value, which is what merging them with the committed delta and applying the merge to
  the value below gave (`DeltaOp.denote_createMergedDelta`).
-/

namespace CreditChain.DelayedFields

variable {K : Type}

/-- Whether an entry is an estimate. -/
def VersionEntry.isEstimate : VersionEntry K → Bool
  | .estimate _ => true
  | _ => false

/-- Whether an entry is a derived string, the one change that reads its base at the end of its
own transaction. -/
def VersionEntry.isDerived : VersionEntry K → Bool
  | .apply (.snapshotDerived _ _) => true
  | _ => false

namespace VersionedValue

attribute [ext] VersionedValue

/-- Every entry below `idx` is a value. -/
def ValuesBelow (vv : VersionedValue K) (idx : Nat) : Prop :=
  ∀ p ∈ vv.rangeBelow idx, ∃ v m, p.2 = .value v m

/-- The value a read below `idx` meets first when the entries there are values: the latest
entry's, or else the value before the block. -/
def valueBelow (vv : VersionedValue K) (idx : Nat) : Option DelayedFieldValue :=
  match (vv.rangeBelow idx).head? with
  | some (_, .value v _) => some v
  | some _ => none
  | none => vv.baseValue

variable {vv : VersionedValue K} {idx j : Nat} {e e' : VersionEntry K}

/-! ### The range of a read -/

theorem mem_rangeBelow {p : Nat × VersionEntry K} :
    p ∈ vv.rangeBelow j ↔ p ∈ vv.versionedMap ∧ p.1 < j := by
  simp [rangeBelow_eq]

/-- The entry at `idx` splits the map into the entries below and above it. -/
theorem split_of_get (h : vv.get idx = some e) :
    ∃ l₁ l₂, vv.versionedMap = l₁ ++ (idx, e) :: l₂ ∧ (∀ p ∈ l₁, p.1 < idx) ∧
      ∀ p ∈ l₂, idx < p.1 := by
  obtain ⟨l₁, l₂, hsplit, -⟩ := List.lookup_eq_some_iff.mp h
  have hsorted := vv.sorted
  rw [hsplit, List.map_append, List.map_cons, List.pairwise_append, List.pairwise_cons] at hsorted
  obtain ⟨-, ⟨habove, -⟩, hbelow⟩ := hsorted
  refine ⟨l₁, l₂, hsplit, fun p hp => ?_, fun p hp => habove p.1 (List.mem_map_of_mem hp)⟩
  exact hbelow p.1 (List.mem_map_of_mem hp) idx List.mem_cons_self

theorem mem_of_get (h : vv.get idx = some e) : (idx, e) ∈ vv.versionedMap := by
  obtain ⟨l₁, l₂, hsplit, -⟩ := split_of_get h
  simp [hsplit]

/-- With an entry at `idx`, a read at `idx + 1` meets it first. -/
theorem rangeBelow_succ_of_get (h : vv.get idx = some e) :
    vv.rangeBelow (idx + 1) = (idx, e) :: vv.rangeBelow idx := by
  obtain ⟨l₁, l₂, hsplit, h₁, h₂⟩ := split_of_get h
  have hfilter : ∀ i ≤ idx + 1, (l₂.filter fun p => decide (p.1 < i)) = [] := by
    intro i hi
    rw [List.filter_eq_nil_iff]
    intro p hp
    have := h₂ p hp
    simp only [decide_eq_true_eq]
    omega
  have hl₁ : ∀ i, idx ≤ i → (l₁.filter fun p => decide (p.1 < i)) = l₁ := by
    intro i hi
    rw [List.filter_eq_self]
    intro p hp
    have := h₁ p hp
    simp only [decide_eq_true_eq]
    omega
  simp only [rangeBelow_eq, hsplit, List.filter_append, List.filter_cons, hl₁ (idx + 1) (by omega),
    hl₁ idx (Nat.le_refl idx), hfilter (idx + 1) (Nat.le_refl _), hfilter idx (by omega)]
  simp

/-- Above an entry at `idx`, a read meets the entries between, then the entry, then the range
below it. -/
theorem rangeBelow_of_get (h : vv.get idx = some e) (hj : idx < j) :
    ∃ above, vv.rangeBelow j = above ++ (idx, e) :: vv.rangeBelow idx ∧ ∀ p ∈ above, idx < p.1 := by
  obtain ⟨l₁, l₂, hsplit, h₁, h₂⟩ := split_of_get h
  have hl₁ : ∀ i, idx ≤ i → (l₁.filter fun p => decide (p.1 < i)) = l₁ := by
    intro i hi
    rw [List.filter_eq_self]
    intro p hp
    have := h₁ p hp
    simp only [decide_eq_true_eq]
    omega
  have hl₂ : (l₂.filter fun p => decide (p.1 < idx)) = [] := by
    rw [List.filter_eq_nil_iff]
    intro p hp
    have := h₂ p hp
    simp only [decide_eq_true_eq]
    omega
  refine ⟨(l₂.filter fun p => decide (p.1 < j)).reverse, ?_, fun p hp => ?_⟩
  · simp only [rangeBelow_eq, hsplit, List.filter_append, List.filter_cons, hl₁ j (Nat.le_of_lt hj),
      hl₁ idx (Nat.le_refl idx),
      hl₂]
    simp [hj]
  · simp only [List.mem_reverse, List.mem_filter] at hp
    exact h₂ p hp.1

/-- Without an entry at `idx`, a read at `idx + 1` walks the range below `idx`. -/
theorem rangeBelow_succ_of_get_none (h : vv.get idx = none) :
    vv.rangeBelow (idx + 1) = vv.rangeBelow idx := by
  have hne : ∀ p ∈ vv.versionedMap, p.1 ≠ idx := by
    intro p hp hpi
    have := List.lookup_eq_none_iff.mp h p hp
    simp [hpi] at this
  rw [rangeBelow_eq, rangeBelow_eq]
  congr 1
  apply List.filter_congr
  intro p hp
  have := hne p hp
  simp only [decide_eq_decide]
  omega

/-! ### Replacing the entry at an index -/

theorem replaceAt_of_ne {p : Nat × VersionEntry K} (h : p.1 ≠ idx) : replaceAt idx e p = p :=
  if_neg h

theorem map_replaceAt_of_ne {l : List (Nat × VersionEntry K)} (h : ∀ p ∈ l, p.1 ≠ idx) :
    l.map (replaceAt idx e) = l := by
  rw [List.map_congr_left fun p hp => replaceAt_of_ne (h p hp), List.map_id']

@[simp] theorem setEntry_baseValue : (vv.setEntry idx e).baseValue = vv.baseValue := rfl

@[simp] theorem setEntry_readEstimateDeltas :
    (vv.setEntry idx e).readEstimateDeltas = vv.readEstimateDeltas := rfl

theorem setEntry_versionedMap :
    (vv.setEntry idx e).versionedMap = vv.versionedMap.map (replaceAt idx e) := rfl

theorem rangeBelow_setEntry : (vv.setEntry idx e).rangeBelow j = (vv.rangeBelow j).map (replaceAt idx e) := by
  simp only [rangeBelow_eq, setEntry_versionedMap, List.map_reverse, List.filter_map]
  congr 2
  apply List.filter_congr
  intro p _
  simp only [Function.comp_apply, replaceAt]
  split <;> rfl

/-- A read below the replaced index walks the same range. -/
theorem rangeBelow_setEntry_of_le (hj : j ≤ idx) : (vv.setEntry idx e).rangeBelow j = vv.rangeBelow j := by
  rw [rangeBelow_setEntry, map_replaceAt_of_ne]
  intro p hp
  have := (Iff.mp mem_rangeBelow hp).2
  omega

theorem lookup_map_replaceAt (l : List (Nat × VersionEntry K)) (k : Nat) :
    (l.map (replaceAt idx e)).lookup k = if k = idx then (l.lookup idx).map fun _ => e else l.lookup k := by
  induction l with
  | nil => split <;> rfl
  | cons p l ih =>
    obtain ⟨i, x⟩ := p
    by_cases hi : i = idx
    · subst hi
      by_cases hk : k = i
      · subst hk
        simp [replaceAt]
      · have hki : (k == i) = false := beq_eq_false_iff_ne.mpr hk
        simp [replaceAt, List.lookup_cons, hki, hk, ih]
    · have hr : replaceAt idx e (i, x) = (i, x) := replaceAt_of_ne hi
      have hidx : (idx == i) = false := beq_eq_false_iff_ne.mpr (Ne.symm hi)
      by_cases hk : k = i
      · subst hk
        simp [hr, hi]
      · have hki : (k == i) = false := beq_eq_false_iff_ne.mpr hk
        simp [hr, List.lookup_cons, hki, hidx, ih]

theorem get_setEntry (k : Nat) :
    (vv.setEntry idx e).get k = if k = idx then (vv.get idx).map fun _ => e else vv.get k :=
  lookup_map_replaceAt vv.versionedMap k

theorem setEntry_setEntry : (vv.setEntry idx e).setEntry idx e' = vv.setEntry idx e' := by
  ext1
  · simp only [setEntry_versionedMap, List.map_map]
    apply List.map_congr_left
    intro p _
    simp only [Function.comp_apply, replaceAt]
    split <;> simp_all
  · rfl
  · rfl


/-! ### Reads below the commit index -/

/-- A read that meets a value, or nothing. -/
def okValue : Option DelayedFieldValue → Except (PanicOr MVDelayedFieldsError) (VersionedRead K)
  | some v => .ok (.value v)
  | none => .error (.or .notFound)

theorem ValuesBelow.mono (h : vv.ValuesBelow idx) (hj : j ≤ idx) : vv.ValuesBelow j := by
  intro p hp
  obtain ⟨hmem, hlt⟩ := Iff.mp mem_rangeBelow hp
  exact h p (Iff.mpr mem_rangeBelow ⟨hmem, by omega⟩)

/-- Below `idx` a read meets a value first, or else nothing but the value before the block. -/
theorem rangeBelow_cases (h : vv.ValuesBelow idx) :
    (vv.rangeBelow idx = [] ∧ vv.valueBelow idx = vv.baseValue) ∨
      ∃ k v m rest, vv.rangeBelow idx = (k, .value v m) :: rest ∧ vv.valueBelow idx = some v := by
  cases hr : vv.rangeBelow idx with
  | nil => exact .inl ⟨rfl, by simp [valueBelow, hr]⟩
  | cons p rest =>
    obtain ⟨v, m, hp⟩ := h p (by simp [hr])
    obtain ⟨k, e⟩ := p
    simp only at hp
    subst hp
    exact .inr ⟨k, v, m, rest, rfl, by simp [valueBelow, hr]⟩

theorem read_of_valuesBelow (h : vv.ValuesBelow j) : vv.read j = some (okValue (vv.valueBelow j)) := by
  rcases rangeBelow_cases h with ⟨hr, hv⟩ | ⟨k, v, m, rest, hr, hv⟩
  · rw [read, hr, hv]
    cases vv.baseValue <;> rfl
  · rw [read, hr, hv]
    rfl

theorem readLatestPredictedValue_of_valuesBelow (h : vv.ValuesBelow idx) {v : DelayedFieldValue}
    (hv : vv.valueBelow idx = some v) : vv.readLatestPredictedValue idx = some (.ok v) := by
  rcases rangeBelow_cases h with ⟨hr, hv'⟩ | ⟨k, v', m, rest, hr, hv'⟩
  · rw [hv, eq_comm] at hv'
    simp [readLatestPredictedValue, hr, hv']
  · rw [hv, Option.some.injEq] at hv'
    simp [readLatestPredictedValue, hr, hv']

theorem suffixLoop_rangeBelow (h : vv.ValuesBelow idx) {a : Nat}
    (hv : vv.valueBelow idx = some (.aggregator a)) (acc : DeltaOp) :
    vv.suffixLoop (vv.rangeBelow idx) acc = some (resolveWith acc a) := by
  rcases rangeBelow_cases h with ⟨hr, hv'⟩ | ⟨k, v, m, rest, hr, hv'⟩
  · rw [hv, eq_comm] at hv'
    rw [hr, suffixLoop_nil, hv']
  · rw [hv, Option.some.injEq] at hv'
    subst hv'
    rw [hr, suffixLoop_cons_value]

/-- A suffix that resolves below `idx` resolves against an aggregator value there. -/
theorem valueBelow_of_suffixLoop (h : vv.ValuesBelow idx) {acc : DeltaOp}
    {r : VersionedRead K} (hs : vv.suffixLoop (vv.rangeBelow idx) acc = some (.ok r)) :
    ∃ a, vv.valueBelow idx = some (.aggregator a) ∧ resolveWith acc a = .ok r := by
  rcases rangeBelow_cases h with ⟨hr, hv⟩ | ⟨k, v, m, rest, hr, hv⟩
  · rw [hr, suffixLoop_nil] at hs
    rw [hv]
    split at hs
    · cases hs
    · rename_i a hb
      exact ⟨a, hb, Option.some.inj hs⟩
    · cases hs
  · rw [hv]
    cases v with
    | aggregator a =>
      rw [hr, suffixLoop_cons_value] at hs
      exact ⟨a, rfl, Option.some.inj hs⟩
    | snapshot _ =>
      rw [hr, suffixLoop_cons_value] at hs
      cases hs
    | derived _ =>
      rw [hr, suffixLoop_cons_value] at hs
      cases hs


/-! ### A read at the index after an entry -/

/-- Replacing an entry by itself changes nothing. -/
theorem setEntry_self (h : vv.get idx = some e) : vv.setEntry idx e = vv := by
  obtain ⟨l₁, l₂, hsplit, h₁, h₂⟩ := split_of_get h
  ext1
  · simp only [setEntry_versionedMap, hsplit, List.map_append, List.map_cons]
    rw [map_replaceAt_of_ne fun p hp => Nat.ne_of_lt (h₁ p hp),
      map_replaceAt_of_ne fun p hp => Nat.ne_of_gt (h₂ p hp)]
    simp [replaceAt]
  · rfl
  · rfl

theorem get_setEntry_self (h : vv.get idx = some e) : (vv.setEntry idx e').get idx = some e' := by
  simp [get_setEntry, h]

theorem insertFinalValue_of_apply {a : DelayedApplyEntry K} {w : DelayedFieldValue}
    (h : vv.get idx = some (.apply a)) :
    vv.insertFinalValue idx w = some (vv.setEntry idx (.value w none)) := by
  delta insertFinalValue
  rw [h]

theorem insertFinalValue_of_value {w : DelayedFieldValue} {m : Option (DelayedApplyEntry K)}
    (h : vv.get idx = some (.value w m)) :
    vv.insertFinalValue idx w = some (vv.setEntry idx (.value w none)) := by
  delta insertFinalValue
  rw [h]
  exact if_pos rfl

theorem read_succ_value {v : DelayedFieldValue} {m : Option (DelayedApplyEntry K)}
    (h : vv.get idx = some (.value v m)) : vv.read (idx + 1) = some (.ok (.value v)) := by
  rw [read, rangeBelow_succ_of_get h]

theorem read_succ_aggregatorDelta {delta : DeltaOp}
    (h : vv.get idx = some (.apply (.aggregatorDelta delta))) :
    vv.read (idx + 1) = vv.suffixLoop (vv.rangeBelow idx) delta := by
  rw [read, rangeBelow_succ_of_get h]
  rfl

theorem read_succ_snapshotDelta {baseAggregator : K} {delta : DeltaOp}
    (h : vv.get idx = some (.apply (.snapshotDelta baseAggregator delta))) :
    vv.read (idx + 1) =
      some (.ok (.dependentApply baseAggregator idx (.snapshotDelta baseAggregator delta))) := by
  rw [read, rangeBelow_succ_of_get h]
  rfl

theorem read_succ_snapshotDerived {baseSnapshot : K} {formula : SnapshotToStringFormula}
    (h : vv.get idx = some (.apply (.snapshotDerived baseSnapshot formula))) :
    vv.read (idx + 1) = some (.ok (.dependentApply baseSnapshot (idx + 1)
      (.snapshotDerived baseSnapshot formula))) := by
  rw [read, rangeBelow_succ_of_get h]
  rfl

theorem read_succ_of_get_none (h : vv.get idx = none) : vv.read (idx + 1) = vv.read idx := by
  rw [read, read, rangeBelow_succ_of_get_none h]

theorem readLatestPredictedValue_succ_of_get_none (h : vv.get idx = none) :
    vv.readLatestPredictedValue (idx + 1) = vv.readLatestPredictedValue idx := by
  rw [readLatestPredictedValue, readLatestPredictedValue, rangeBelow_succ_of_get_none h]

theorem readLatestPredictedValue_succ_of_value {v : DelayedFieldValue}
    {m : Option (DelayedApplyEntry K)} (h : vv.get idx = some (.value v m)) :
    vv.readLatestPredictedValue (idx + 1) = some (.ok v) := by
  rw [readLatestPredictedValue, rangeBelow_succ_of_get h]
  rfl

theorem ValuesBelow.setEntry (h : vv.ValuesBelow idx) : (vv.setEntry idx e).ValuesBelow idx := by
  unfold ValuesBelow
  rw [rangeBelow_setEntry_of_le (Nat.le_refl idx)]
  exact h

theorem valueBelow_setEntry : (vv.setEntry idx e).valueBelow idx = vv.valueBelow idx := by
  unfold valueBelow
  rw [rangeBelow_setEntry_of_le (Nat.le_refl idx)]
  rfl

theorem resolveWith_eq_ok {acc : DeltaOp} {a : Nat} {r : VersionedRead K} :
    resolveWith acc a = .ok r ↔ ∃ b, acc.applyTo a = .ok b ∧ r = .value (.aggregator b) := by
  unfold resolveWith
  cases acc.applyTo a with
  | error e => simp [Except.mapError, Except.map]
  | ok b =>
    simp only [Except.mapError, Except.map, Except.ok.injEq]
    exact ⟨fun h => ⟨b, rfl, h.symm⟩, fun ⟨b', hb, hr⟩ => by cases hb; exact hr.symm⟩

end VersionedValue

namespace DelayedApplyEntry

theorem applyToBase_snapshotDelta_eq_ok {baseAggregator : K} {delta : DeltaOp}
    {u w : DelayedFieldValue} :
    (snapshotDelta baseAggregator delta).applyToBase u = .ok w ↔
      ∃ a b, u = .aggregator a ∧ delta.applyTo a = .ok b ∧ w = .snapshot b := by
  delta applyToBase
  cases u with
  | aggregator a =>
    rcases h : delta.applyTo a with e | b <;>
      simp [DelayedFieldValue.intoAggregatorValue, Except.mapError, bind, Except.bind,
        pure, Except.pure, h, eq_comm]
  | snapshot _ => simp [DelayedFieldValue.intoAggregatorValue, Except.mapError, bind, Except.bind]
  | derived _ => simp [DelayedFieldValue.intoAggregatorValue, Except.mapError, bind, Except.bind]

theorem applyToBase_snapshotDerived_eq_ok {baseSnapshot : K} {formula : SnapshotToStringFormula}
    {u w : DelayedFieldValue} :
    (snapshotDerived baseSnapshot formula).applyToBase u = .ok w ↔
      ∃ σ, u = .snapshot σ ∧ w = .derived (formula.applyTo σ) := by
  delta applyToBase
  cases u with
  | snapshot σ =>
    simp [DelayedFieldValue.intoSnapshotValue, Except.mapError, bind, Except.bind,
      pure, Except.pure, eq_comm]
  | aggregator _ => simp [DelayedFieldValue.intoSnapshotValue, Except.mapError, bind, Except.bind]
  | derived _ => simp [DelayedFieldValue.intoSnapshotValue, Except.mapError, bind, Except.bind]

end DelayedApplyEntry

/-! ### Reads of a field through the fields it depends on -/

namespace VersionedDelayedFields

variable [DecidableEq K] {s s' : VersionedDelayedFields K} {id : K} {vv : VersionedValue K}
  {j d : Nat}

/-- The last step of `read_checked_depth` on a dependent apply: the change applied to the value
read from its base. -/
def applyToRead (apply : DelayedApplyEntry K) :
    Option (Except (PanicOr MVDelayedFieldsError) DelayedFieldValue) →
      Option (Except (PanicOr MVDelayedFieldsError) DelayedFieldValue)
  | none => none
  | some (.error e) => some (.error e)
  | some (.ok sourceValue) =>
    some ((apply.applyToBase sourceValue).mapError MVDelayedFieldsError.fromPanicOr)

omit [DecidableEq K] in
theorem applyToRead_eq_ok {apply : DelayedApplyEntry K}
    {r : Option (Except (PanicOr MVDelayedFieldsError) DelayedFieldValue)} {w : DelayedFieldValue} :
    applyToRead apply r = some (.ok w) ↔ ∃ u, r = some (.ok u) ∧ apply.applyToBase u = .ok w := by
  rcases r with _ | (e | u)
  · simp [applyToRead]
  · simp [applyToRead]
  · rcases h : apply.applyToBase u with e | w' <;> simp [applyToRead, h, Except.mapError]

theorem readCheckedDepth_of_read_none (hs : s.values id = some vv) (hr : vv.read j = none) :
    s.readCheckedDepth id j d = none := by
  rw [readCheckedDepth_eq, hs]
  dsimp only
  rw [hr]

theorem readCheckedDepth_of_read_error (hs : s.values id = some vv)
    {e : PanicOr MVDelayedFieldsError} (hr : vv.read j = some (.error e)) :
    s.readCheckedDepth id j d = some (.error e) := by
  rw [readCheckedDepth_eq, hs]
  dsimp only
  rw [hr]

theorem readCheckedDepth_of_value (hs : s.values id = some vv) {v : DelayedFieldValue}
    (hr : vv.read j = some (.ok (.value v))) : s.readCheckedDepth id j d = some (.ok v) := by
  rw [readCheckedDepth_eq, hs]
  dsimp only
  rw [hr]

/-- A dependent apply on the field itself is the code invariant error. -/
theorem readCheckedDepth_of_dependentApply_self (hs : s.values id = some vv) {j' : Nat}
    {apply : DelayedApplyEntry K} (hr : vv.read j = some (.ok (.dependentApply id j' apply))) :
    s.readCheckedDepth id j d =
      some (.error (.ofPanicError (codeInvariantError "ID of dependent apply is same as self"))) := by
  rw [readCheckedDepth_eq, hs]
  dsimp only
  rw [hr]
  exact if_pos rfl

theorem readCheckedDepth_of_dependentApply (hs : s.values id = some vv) {id' : K} {j' : Nat}
    {apply : DelayedApplyEntry K} (hr : vv.read j = some (.ok (.dependentApply id' j' apply)))
    (hne : id' ≠ id) (hd : d ≤ 2) :
    s.readCheckedDepth id j d = applyToRead apply (s.readCheckedDepth id' j' (d + 1)) := by
  rw [readCheckedDepth_eq, hs]
  dsimp only
  rw [hr]
  dsimp only
  rw [if_neg hne, if_neg (show ¬ d > 2 by omega)]
  cases s.readCheckedDepth id' j' (d + 1) with
  | none => rfl
  | some r => cases r <;> rfl


/-- With every entry below `idx` a value, a read at or below `idx` is the value it meets, at any
depth. -/
theorem readCheckedDepth_of_le (hbelow : ∀ id vv, s.values id = some vv → vv.ValuesBelow idx)
    (hj : j ≤ idx) :
    s.readCheckedDepth id j d = some (match s.values id with
      | none => .error (.or .notFound)
      | some vv => match vv.valueBelow j with
        | some v => .ok v
        | none => .error (.or .notFound)) := by
  rw [readCheckedDepth_eq]
  cases hs : s.values id with
  | none => rfl
  | some vv =>
    dsimp only
    rw [VersionedValue.read_of_valuesBelow ((hbelow id vv hs).mono hj)]
    cases vv.valueBelow j <;> rfl

@[simp] theorem values_setValue (id' : K) :
    (s.setValue id vv).values id' = if id' = id then some vv else s.values id' := by
  simp [setValue, Function.update_apply]

@[simp] theorem nextIdxToCommit_setValue : (s.setValue id vv).nextIdxToCommit = s.nextIdxToCommit :=
  rfl

/-! ### What a commit may change -/

variable {idx : Nat}

/-- Field `id` has an entry at `idx`, and it is not an estimate. -/
def Listed (s : VersionedDelayedFields K) (idx : Nat) (id : K) : Prop :=
  ∃ vv e, s.values id = some vv ∧ vv.get idx = some e ∧ e.isEstimate = false

/-- In `s'`, the entry of `id` at `idx` is the value `id` reads at `idx + 1` in `s`. -/
def Replaced (s s' : VersionedDelayedFields K) (idx : Nat) (id : K) : Prop :=
  s.Listed idx id ∧ ∃ vv v, s.values id = some vv ∧ s.read id (idx + 1) = some (.ok v) ∧
    s'.values id = some (vv.setEntry idx (.value v none))

/-- `s'` is `s` with the entries at `idx` of some fields replaced by what they read at `idx + 1`. -/
def CommittedAt (s s' : VersionedDelayedFields K) (idx : Nat) : Prop :=
  ∀ id, s'.values id = s.values id ∨ s.Replaced s' idx id

theorem CommittedAt.refl (s : VersionedDelayedFields K) (idx : Nat) : s.CommittedAt s idx :=
  fun _ => .inl rfl

/-- Replacing a field keeps every other replaced field. -/
theorem Replaced.setValue {s₁ : VersionedDelayedFields K} {id' : K} {vv' : VersionedValue K}
    (hr : s.Replaced s₁ idx id) (hr' : s.Replaced (s₁.setValue id' vv') idx id') :
    s.Replaced (s₁.setValue id' vv') idx id := by
  by_cases hid : id = id'
  · subst hid
    exact hr'
  · obtain ⟨hl, vv, v, hs, hread, hs₁⟩ := hr
    exact ⟨hl, vv, v, hs, hread, by simp [hid, hs₁]⟩

theorem CommittedAt.setValue {s₁ : VersionedDelayedFields K} (h : s.CommittedAt s₁ idx)
    (hr : s.Replaced (s₁.setValue id vv) idx id) : s.CommittedAt (s₁.setValue id vv) idx := by
  intro id'
  by_cases hid : id' = id
  · subst hid
    exact .inr hr
  · rcases h id' with h' | h'
    · exact .inl (by simp [hid, h'])
    · exact .inr (h'.setValue hr)


/-! ### What a field reads at the index after its entry -/

theorem read_succ_of_value (hs : s.values id = some vv) {w : DelayedFieldValue}
    {m : Option (DelayedApplyEntry K)} (hg : vv.get idx = some (.value w m)) :
    s.read id (idx + 1) = some (.ok w) :=
  readCheckedDepth_of_value hs (VersionedValue.read_succ_value hg)

/-- An aggregator delta at `idx` reads as the delta applied to the value below. -/
theorem read_succ_of_aggregatorDelta (hs : s.values id = some vv) {delta : DeltaOp}
    (hg : vv.get idx = some (.apply (.aggregatorDelta delta))) (hb : vv.ValuesBelow idx)
    {v : DelayedFieldValue} (hr : s.read id (idx + 1) = some (.ok v)) :
    ∃ a b, vv.valueBelow idx = some (.aggregator a) ∧ delta.applyTo a = .ok b ∧
      v = .aggregator b := by
  have hread := VersionedValue.read_succ_aggregatorDelta hg
  rw [read_eq] at hr
  -- the suffix loop below `idx` decides the read
  rcases hsl : vv.suffixLoop (vv.rangeBelow idx) delta with _ | (e | r)
  · rw [readCheckedDepth_of_read_none hs (hread.trans hsl)] at hr
    cases hr
  · rw [readCheckedDepth_of_read_error hs (hread.trans hsl)] at hr
    cases hr
  · obtain ⟨a, hv, hres⟩ := VersionedValue.valueBelow_of_suffixLoop hb hsl
    obtain ⟨b, hb', rfl⟩ := Iff.mp VersionedValue.resolveWith_eq_ok hres
    rw [readCheckedDepth_of_value hs (hread.trans hsl), Option.some.injEq, Except.ok.injEq] at hr
    exact ⟨a, b, hv, hb', hr.symm⟩

/-- A snapshot delta at `idx` reads as the delta applied to its aggregator's value below. -/
theorem read_succ_of_snapshotDelta (hbelow : ∀ id vv, s.values id = some vv → vv.ValuesBelow idx)
    (hs : s.values id = some vv) {baseAggregator : K} {delta : DeltaOp}
    (hg : vv.get idx = some (.apply (.snapshotDelta baseAggregator delta)))
    {v : DelayedFieldValue} (hr : s.read id (idx + 1) = some (.ok v)) :
    ∃ vvA a b, s.values baseAggregator = some vvA ∧ vvA.valueBelow idx = some (.aggregator a) ∧
      delta.applyTo a = .ok b ∧ v = .snapshot b := by
  have hread := VersionedValue.read_succ_snapshotDelta hg
  by_cases hA : baseAggregator = id
  · subst hA
    rw [read_eq, readCheckedDepth_of_dependentApply_self hs hread] at hr
    cases hr
  rw [read_eq, readCheckedDepth_of_dependentApply hs hread hA (by omega),
    readCheckedDepth_of_le hbelow (Nat.le_refl idx)] at hr
  rcases hsA : s.values baseAggregator with _ | vvA
  · simp [hsA, applyToRead] at hr
  rcases hv : vvA.valueBelow idx with _ | u
  · simp [hsA, hv, applyToRead] at hr
  simp only [hsA, hv, applyToRead, Option.some.injEq, Except.mapError_eq_ok] at hr
  obtain ⟨a, b, rfl, hb, rfl⟩ := Iff.mp DelayedApplyEntry.applyToBase_snapshotDelta_eq_ok hr
  exact ⟨vvA, a, b, rfl, hv, hb, rfl⟩

/-- A derived string at `idx` reads as the formula applied to its snapshot's value after `idx`. -/
theorem read_succ_of_snapshotDerived (hs : s.values id = some vv) {baseSnapshot : K}
    {formula : SnapshotToStringFormula}
    (hg : vv.get idx = some (.apply (.snapshotDerived baseSnapshot formula)))
    {v : DelayedFieldValue} (hr : s.read id (idx + 1) = some (.ok v)) :
    baseSnapshot ≠ id ∧ ∃ σ, s.readCheckedDepth baseSnapshot (idx + 1) 1 = some (.ok (.snapshot σ)) ∧
      v = .derived (formula.applyTo σ) := by
  have hread := VersionedValue.read_succ_snapshotDerived hg
  by_cases hS : baseSnapshot = id
  · subst hS
    rw [read_eq, readCheckedDepth_of_dependentApply_self hs hread] at hr
    cases hr
  refine ⟨hS, ?_⟩
  rw [read_eq, readCheckedDepth_of_dependentApply hs hread hS (by omega)] at hr
  rcases h₁ : s.readCheckedDepth baseSnapshot (idx + 1) (0 + 1) with _ | (e | u)
  · simp [h₁, applyToRead] at hr
  · simp [h₁, applyToRead] at hr
  simp only [h₁, applyToRead, Option.some.injEq, Except.mapError_eq_ok] at hr
  obtain ⟨σ, rfl, rfl⟩ := Iff.mp DelayedApplyEntry.applyToBase_snapshotDerived_eq_ok hr
  exact ⟨σ, rfl, rfl⟩


/-! ### The first pass -/

/-- A snapshot delta the first pass queues: `t.1` holds it at `idx` in `s`. -/
def DeltaItem (s : VersionedDelayedFields K) (idx : Nat) (t : K × K × DeltaOp) : Prop :=
  ∃ vv, s.values t.1 = some vv ∧ vv.get idx = some (.apply (.snapshotDelta t.2.1 t.2.2))

/-- A derived string the first pass queues: `t.1` holds it at `idx` in `s`. -/
def DerivedItem (s : VersionedDelayedFields K) (idx : Nat)
    (t : K × K × SnapshotToStringFormula) : Prop :=
  ∃ vv, s.values t.1 = some vv ∧ vv.get idx = some (.apply (.snapshotDerived t.2.1 t.2.2))

theorem commitFirstPass_cons_none {s₁ : VersionedDelayedFields K} {ids : List K}
    {todoDeltas : List (K × K × DeltaOp)} {todoDerived : List (K × K × SnapshotToStringFormula)}
    {e : VersionEntry K} (hs : s₁.values id = some vv) (hg : vv.get idx = some e)
    (hn : firstPassNewEntry vv idx e = some (.ok none)) :
    commitFirstPass idx s₁ (id :: ids) todoDeltas todoDerived =
      commitFirstPass idx s₁ ids (todoDeltas ++ todoDeltaOf id e)
        (todoDerived ++ todoDerivedOf id e) := by
  rw [commitFirstPass_cons, hs, Option.bind_some, hg, Option.bind_some, hn, Option.bind_some]

theorem commitFirstPass_cons_some {s₁ : VersionedDelayedFields K} {ids : List K}
    {todoDeltas : List (K × K × DeltaOp)} {todoDerived : List (K × K × SnapshotToStringFormula)}
    {e : VersionEntry K} {w : DelayedFieldValue} {vv' : VersionedValue K}
    (hs : s₁.values id = some vv) (hg : vv.get idx = some e)
    (hn : firstPassNewEntry vv idx e = some (.ok (some w)))
    (hi : vv.insertFinalValue idx w = some vv') :
    commitFirstPass idx s₁ (id :: ids) todoDeltas todoDerived =
      commitFirstPass idx (s₁.setValue id vv') ids todoDeltas todoDerived := by
  rw [commitFirstPass_cons, hs, Option.bind_some, hg, Option.bind_some, hn, Option.bind_some]
  dsimp only
  rw [hi, Option.bind_some]

/-- A read that meets no dependent apply does not depend on the depth. -/
theorem readCheckedDepth_of_not_dependentApply (hs : s.values id = some vv)
    (hr : ∀ id' j' a, vv.read j ≠ some (.ok (.dependentApply id' j' a))) (d d' : Nat) :
    s.readCheckedDepth id j d = s.readCheckedDepth id j d' := by
  rcases h : vv.read j with _ | (e | (v | ⟨id', j', a⟩))
  · rw [readCheckedDepth_of_read_none hs h, readCheckedDepth_of_read_none hs h]
  · rw [readCheckedDepth_of_read_error hs h, readCheckedDepth_of_read_error hs h]
  · rw [readCheckedDepth_of_value hs h, readCheckedDepth_of_value hs h]
  · exact absurd h (hr id' j' a)

/-- A listed field that is not a derived string reads at `idx + 1` the same at every depth up to
two: its base, if any, is read below `idx`, where every entry is a value. -/
theorem readCheckedDepth_succ_of_not_derived
    (hbelow : ∀ id vv, s.values id = some vv → vv.ValuesBelow idx) (hs : s.values id = some vv)
    {e : VersionEntry K} (hg : vv.get idx = some e) (hest : e.isEstimate = false)
    (hder : e.isDerived = false) (hd : d ≤ 2) :
    s.readCheckedDepth id (idx + 1) d = s.read id (idx + 1) := by
  cases e with
  | value w m =>
    rw [read_eq, readCheckedDepth_of_value hs (VersionedValue.read_succ_value hg),
      readCheckedDepth_of_value hs (VersionedValue.read_succ_value hg)]
  | apply a =>
    cases a with
    | aggregatorDelta delta =>
      refine readCheckedDepth_of_not_dependentApply hs (fun id' j' a h => ?_) d 0
      rw [VersionedValue.read_succ_aggregatorDelta hg] at h
      obtain ⟨b, -, hres⟩ := VersionedValue.valueBelow_of_suffixLoop (hbelow id vv hs) h
      obtain ⟨c, -, hc⟩ := Iff.mp VersionedValue.resolveWith_eq_ok hres
      cases hc
    | snapshotDelta baseAggregator delta =>
      have hread := VersionedValue.read_succ_snapshotDelta hg
      by_cases hA : baseAggregator = id
      · subst hA
        rw [read_eq, readCheckedDepth_of_dependentApply_self hs hread,
          readCheckedDepth_of_dependentApply_self hs hread]
      · rw [read_eq, readCheckedDepth_of_dependentApply hs hread hA hd,
          readCheckedDepth_of_dependentApply hs hread hA (by omega),
          readCheckedDepth_of_le hbelow (Nat.le_refl idx), readCheckedDepth_of_le hbelow (Nat.le_refl idx)]
    | snapshotDerived => cases hder
  | estimate => cases hest

/-- A derived string never reads as a snapshot. -/
theorem readCheckedDepth_ne_snapshot_of_derived (hs : s.values id = some vv) {e : VersionEntry K}
    (hg : vv.get idx = some e) (hder : e.isDerived = true) (hd : d ≤ 2) {σ : Nat} :
    s.readCheckedDepth id (idx + 1) d ≠ some (.ok (.snapshot σ)) := by
  intro h
  cases e with
  | apply a =>
    cases a with
    | snapshotDerived S formula =>
      have hread := VersionedValue.read_succ_snapshotDerived hg
      by_cases hS : S = id
      · subst hS
        rw [readCheckedDepth_of_dependentApply_self hs hread] at h
        cases h
      · rw [readCheckedDepth_of_dependentApply hs hread hS hd] at h
        obtain ⟨u, -, hu⟩ := Iff.mp applyToRead_eq_ok h
        obtain ⟨τ, -, hτ⟩ := Iff.mp DelayedApplyEntry.applyToBase_snapshotDerived_eq_ok hu
        cases hτ
    | _ => cases hder
  | _ => cases hder

/-! ### The later passes -/

theorem commitQueued_cons {α : Type} {readIdx : Nat}
    {compute : α → DelayedFieldValue → Except CommitError DelayedFieldValue}
    {s₁ : VersionedDelayedFields K} {todo : List (K × K × α)} {baseId : K} {change : α}
    {bv vv' : VersionedValue K} {prev newEntry : DelayedFieldValue}
    (hb : s₁.values baseId = some bv) (hp : bv.readLatestPredictedValue readIdx = some (.ok prev))
    (hcomp : compute change prev = .ok newEntry) (hs : s₁.values id = some vv)
    (hi : vv.insertFinalValue idx newEntry = some vv') :
    commitQueued idx readIdx compute s₁ ((id, baseId, change) :: todo) =
      commitQueued idx readIdx compute (s₁.setValue id vv') todo := by
  simp [commitQueued, hb, hp, hcomp, hs, hi]

/-- A later pass: each queued field's final value comes from its base, as `hstep` says, and the
pass keeps the invariant `I` of the states it goes through. -/
theorem commitQueued_run {α : Type} {readIdx : Nat}
    {compute : α → DelayedFieldValue → Except CommitError DelayedFieldValue}
    {I : VersionedDelayedFields K → Prop} (todo : List (K × K × α))
    (hstep : ∀ s₁, I s₁ → ∀ t ∈ todo, ∃ bv prev newEntry vv vv', s₁.values t.2.1 = some bv ∧
      bv.readLatestPredictedValue readIdx = some (.ok prev) ∧ compute t.2.2 prev = .ok newEntry ∧
      s₁.values t.1 = some vv ∧ vv.insertFinalValue idx newEntry = some vv' ∧
      s.Replaced (s₁.setValue t.1 vv') idx t.1 ∧ I (s₁.setValue t.1 vv')) :
    ∀ s₁, I s₁ → ∃ s₂, commitQueued idx readIdx compute s₁ todo = some (s₂, .ok ()) ∧
      s₂.nextIdxToCommit = s₁.nextIdxToCommit ∧ I s₂ ∧
      (∀ id, s.Replaced s₁ idx id → s.Replaced s₂ idx id) ∧ ∀ t ∈ todo, s.Replaced s₂ idx t.1 := by
  induction todo with
  | nil => exact fun s₁ hI => ⟨s₁, rfl, rfl, hI, fun _ h => h, by simp⟩
  | cons t todo ih =>
    intro s₁ hI
    obtain ⟨id, baseId, change⟩ := t
    obtain ⟨bv, prev, newEntry, vv, vv', hb, hp, hcomp, hs, hi, hrep, hI'⟩ :=
      hstep s₁ hI _ List.mem_cons_self
    obtain ⟨s₂, hrun, hnext, hI₂, hmono, hall⟩ :=
      ih (fun s₁ hI t ht => hstep s₁ hI t (List.mem_cons_of_mem _ ht)) _ hI'
    refine ⟨s₂, by rw [commitQueued_cons hb hp hcomp hs hi, hrun], hnext, hI₂,
      fun i hr => hmono i (hr.setValue hrep), fun t' ht' => ?_⟩
    rcases List.mem_cons.1 ht' with rfl | ht'
    · exact hmono _ hrep
    · exact hall t' ht'

/-- Inserting into a listed field the value it reads at `idx + 1`, whether or not a pass has
inserted it already. -/
theorem CommittedAt.insertFinal {s₁ : VersionedDelayedFields K} (hc : s.CommittedAt s₁ idx)
    (hl : s.Listed idx id) (hs : s.values id = some vv) {a : DelayedApplyEntry K}
    (hg : vv.get idx = some (.apply a)) {v : DelayedFieldValue}
    (hv : s.read id (idx + 1) = some (.ok v)) :
    ∃ vv₁ vv', s₁.values id = some vv₁ ∧ vv₁.insertFinalValue idx v = some vv' ∧
      s.Replaced (s₁.setValue id vv') idx id := by
  rcases hc id with hs₁ | ⟨-, vv₀, v₀, hs₀, hv₀, hs₁⟩
  · rw [hs] at hs₁
    exact ⟨vv, _, hs₁, VersionedValue.insertFinalValue_of_apply hg, hl, vv, v, hs, hv, by simp⟩
  · rw [hs] at hs₀
    obtain rfl := Option.some.inj hs₀
    obtain rfl : v₀ = v := Except.ok.inj (Option.some.inj (hv₀.symm.trans hv))
    refine ⟨_, _, hs₁, VersionedValue.insertFinalValue_of_value
      (VersionedValue.get_setEntry_self hg), hl, vv, v₀, hs, hv, ?_⟩
    simp [VersionedValue.setEntry_setEntry]

/-- A field whose entries below `idx` are values predicts the same value after a commit that
replaces entries at `idx` only. -/
theorem CommittedAt.readLatestPredictedValue {s₁ : VersionedDelayedFields K}
    (hc : s.CommittedAt s₁ idx) {baseId : K} {bv : VersionedValue K}
    (hs : s.values baseId = some bv) (hb : bv.ValuesBelow idx) {u : DelayedFieldValue}
    (hv : bv.valueBelow idx = some u) :
    ∃ bv₁, s₁.values baseId = some bv₁ ∧ bv₁.readLatestPredictedValue idx = some (.ok u) := by
  rcases hc baseId with hs₁ | ⟨-, bv₀, v₀, hs₀, -, hs₁⟩
  · rw [hs] at hs₁
    exact ⟨bv, hs₁, VersionedValue.readLatestPredictedValue_of_valuesBelow hb hv⟩
  · rw [hs] at hs₀
    obtain rfl := Option.some.inj hs₀
    exact ⟨_, hs₁, VersionedValue.readLatestPredictedValue_of_valuesBelow hb.setEntry
      (VersionedValue.valueBelow_setEntry.trans hv)⟩

section TryCommit

variable {ids : List K} (hbelow : ∀ id vv, s.values id = some vv → vv.ValuesBelow idx)
  (hids : ∀ id, id ∈ ids ↔ ∃ vv e, s.values id = some vv ∧ vv.get idx = some e)
  (hnoest : ∀ id vv e, s.values id = some vv → vv.get idx = some e → e.isEstimate = false)
  (hread : ∀ id ∈ ids, ∃ v, s.read id (idx + 1) = some (.ok v))
include hbelow hids hnoest hread

/-- One field of the first pass: replaced now, or queued for a later pass. -/
theorem firstPass_step {s₁ : VersionedDelayedFields K} (hc : s.CommittedAt s₁ idx) (hid : id ∈ ids) :
    ∃ vv₁ e, s₁.values id = some vv₁ ∧ vv₁.get idx = some e ∧
      ((firstPassNewEntry vv₁ idx e = some (.ok none) ∧
          (∀ t ∈ todoDeltaOf id e, s.DeltaItem idx t) ∧ (∀ t ∈ todoDerivedOf id e, s.DerivedItem idx t) ∧
          (s.Replaced s₁ idx id ∨ (∃ t ∈ todoDeltaOf id e, t.1 = id) ∨
            ∃ t ∈ todoDerivedOf id e, t.1 = id)) ∨
        ∃ w vv', firstPassNewEntry vv₁ idx e = some (.ok (some w)) ∧
          vv₁.insertFinalValue idx w = some vv' ∧ s.Replaced (s₁.setValue id vv') idx id) := by
  obtain ⟨vv, e, hs, hg⟩ := (hids id).1 hid
  have hl : s.Listed idx id := ⟨vv, e, hs, hg, hnoest id vv e hs hg⟩
  obtain ⟨v, hv⟩ := hread id hid
  rcases hc id with hs₁ | hrep
  · -- the field is as it was: its entry decides
    rw [hs] at hs₁
    refine ⟨vv, e, hs₁, hg, ?_⟩
    cases e with
    | value w m =>
      have hvw : v = w := Except.ok.inj (Option.some.inj (hv.symm.trans (read_succ_of_value hs hg)))
      subst hvw
      cases m with
      | none =>
        refine .inl ⟨rfl, by simp [todoDeltaOf], by simp [todoDerivedOf], .inl ⟨hl, vv, v, hs, hv, ?_⟩⟩
        rw [VersionedValue.setEntry_self hg, hs₁]
      | some a =>
        exact .inr ⟨v, _, rfl, VersionedValue.insertFinalValue_of_value hg,
          hl, vv, v, hs, hv, by simp⟩
    | apply a =>
      cases a with
      | aggregatorDelta delta =>
        obtain ⟨a, b, hva, hb, rfl⟩ := read_succ_of_aggregatorDelta hs hg (hbelow id vv hs) hv
        have hp := VersionedValue.readLatestPredictedValue_of_valuesBelow (hbelow id vv hs) hva
        refine .inr ⟨.aggregator b, _, by simp [firstPassNewEntry, hp, hb],
          VersionedValue.insertFinalValue_of_apply hg, hl, vv, .aggregator b, hs, hv, by simp⟩
      | snapshotDelta baseAggregator delta =>
        refine .inl ⟨rfl, ?_, by simp [todoDerivedOf], .inr (.inl ⟨(id, baseAggregator, delta), by simp [todoDeltaOf], rfl⟩)⟩
        simp only [todoDeltaOf, List.mem_singleton, forall_eq]
        exact ⟨vv, hs, hg⟩
      | snapshotDerived baseSnapshot formula =>
        refine .inl ⟨rfl, by simp [todoDeltaOf], ?_, .inr (.inr ⟨(id, baseSnapshot, formula), by simp [todoDerivedOf], rfl⟩)⟩
        simp only [todoDerivedOf, List.mem_singleton, forall_eq]
        exact ⟨vv, hs, hg⟩
    | estimate est => exact absurd (hnoest id vv _ hs hg) (by simp [VersionEntry.isEstimate])
  · -- replaced already by an earlier occurrence of the id
    obtain ⟨-, vv₀, v₀, hs₀, hv₀, hs₁⟩ := hrep
    rw [hs] at hs₀
    obtain rfl := Option.some.inj hs₀
    refine ⟨_, _, hs₁, VersionedValue.get_setEntry_self hg, .inl ⟨rfl, by simp [todoDeltaOf],
      by simp [todoDerivedOf], .inl ⟨hl, vv, v₀, hs, hv₀, hs₁⟩⟩⟩

/-- The first pass over some of the listed fields. -/
theorem commitFirstPass_run : ∀ (rest : List K) (s₁ : VersionedDelayedFields K)
    (todoDeltas : List (K × K × DeltaOp)) (todoDerived : List (K × K × SnapshotToStringFormula)),
    (∀ id ∈ rest, id ∈ ids) → s.CommittedAt s₁ idx → (∀ t ∈ todoDeltas, s.DeltaItem idx t) →
    (∀ t ∈ todoDerived, s.DerivedItem idx t) →
    ∃ s₂ todoDeltas' todoDerived',
      commitFirstPass idx s₁ rest todoDeltas todoDerived = some (s₂, .ok (todoDeltas', todoDerived')) ∧
      s₂.nextIdxToCommit = s₁.nextIdxToCommit ∧ s.CommittedAt s₂ idx ∧
      (∀ t ∈ todoDeltas', s.DeltaItem idx t) ∧ (∀ t ∈ todoDerived', s.DerivedItem idx t) ∧
      (∀ id, s.Replaced s₁ idx id → s.Replaced s₂ idx id) ∧
      (∀ t ∈ todoDeltas, t ∈ todoDeltas') ∧ (∀ t ∈ todoDerived, t ∈ todoDerived') ∧
      ∀ id ∈ rest, s.Replaced s₂ idx id ∨ (∃ t ∈ todoDeltas', t.1 = id) ∨
        ∃ t ∈ todoDerived', t.1 = id
  | [], s₁, todoDeltas, todoDerived, _, hc, hD, hR =>
    ⟨s₁, todoDeltas, todoDerived, rfl, rfl, hc, hD, hR, fun _ h => h, fun _ h => h, fun _ h => h,
      by simp⟩
  | id :: rest, s₁, todoDeltas, todoDerived, hrest, hc, hD, hR => by
    have hrest' : ∀ i ∈ rest, i ∈ ids := fun i hi => hrest i (List.mem_cons_of_mem _ hi)
    obtain ⟨vv₁, e, hs₁, hg, ⟨hn, hD', hR', hwhere⟩ | ⟨w, vv', hn, hi, hrep⟩⟩ :=
      firstPass_step hbelow hids hnoest hread hc (hrest id List.mem_cons_self)
    · -- nothing to insert now: the field is replaced, or queued
      rw [commitFirstPass_cons_none hs₁ hg hn]
      obtain ⟨s₂, tD, tR, hrun, hnext, hc₂, hD₂, hR₂, hmono, hsubD, hsubR, hall⟩ :=
        commitFirstPass_run rest s₁ (todoDeltas ++ todoDeltaOf id e)
          (todoDerived ++ todoDerivedOf id e) hrest' hc
          (fun t ht => (List.mem_append.1 ht).elim (hD t) (hD' t))
          (fun t ht => (List.mem_append.1 ht).elim (hR t) (hR' t))
      refine ⟨s₂, tD, tR, hrun, hnext, hc₂, hD₂, hR₂, hmono,
        fun t ht => hsubD t (List.mem_append_left _ ht),
        fun t ht => hsubR t (List.mem_append_left _ ht), fun i hi => ?_⟩
      rcases List.mem_cons.1 hi with rfl | hi
      · rcases hwhere with hr | ⟨t, ht, ht₁⟩ | ⟨t, ht, ht₁⟩
        · exact .inl (hmono _ hr)
        · exact .inr (.inl ⟨t, hsubD t (List.mem_append_right _ ht), ht₁⟩)
        · exact .inr (.inr ⟨t, hsubR t (List.mem_append_right _ ht), ht₁⟩)
      · exact hall i hi
    · -- the final value is inserted now
      rw [commitFirstPass_cons_some hs₁ hg hn hi]
      obtain ⟨s₂, tD, tR, hrun, hnext, hc₂, hD₂, hR₂, hmono, hsubD, hsubR, hall⟩ :=
        commitFirstPass_run rest (s₁.setValue id vv') todoDeltas todoDerived hrest'
          (hc.setValue hrep) hD hR
      refine ⟨s₂, tD, tR, hrun, hnext, hc₂, hD₂, hR₂, fun i hr => hmono i (hr.setValue hrep),
        hsubD, hsubR, fun i hi => ?_⟩
      rcases List.mem_cons.1 hi with rfl | hi
      · exact .inl (hmono _ hrep)
      · exact hall i hi




/-- Every listed field but the derived strings is replaced in `s₁`: the state the third pass
starts from. -/
def NonDerivedReplaced (s s₁ : VersionedDelayedFields K) (idx : Nat) : Prop :=
  ∀ id vv e, s.values id = some vv → vv.get idx = some e → e.isDerived = false → s.Replaced s₁ idx id

/-- One snapshot delta of the second pass: its base aggregator predicts the value before the
transaction, which the delta turns into what the snapshot reads. -/
theorem deltaPass_step {s₁ : VersionedDelayedFields K} (hc : s.CommittedAt s₁ idx)
    {t : K × K × DeltaOp} (ht : s.DeltaItem idx t) :
    ∃ bv prev newEntry vv vv', s₁.values t.2.1 = some bv ∧
      bv.readLatestPredictedValue idx = some (.ok prev) ∧ snapshotDeltaEntry t.2.2 prev = .ok newEntry ∧
      s₁.values t.1 = some vv ∧ vv.insertFinalValue idx newEntry = some vv' ∧
      s.Replaced (s₁.setValue t.1 vv') idx t.1 ∧ s.CommittedAt (s₁.setValue t.1 vv') idx := by
  obtain ⟨id, A, delta⟩ := t
  obtain ⟨vv, hs, hg⟩ := ht
  have hl : s.Listed idx id := ⟨vv, _, hs, hg, hnoest _ _ _ hs hg⟩
  obtain ⟨v, hv⟩ := hread id ((hids id).2 ⟨vv, _, hs, hg⟩)
  obtain ⟨vvA, a, b, hsA, hva, hb, rfl⟩ := read_succ_of_snapshotDelta hbelow hs hg hv
  obtain ⟨bv, hbv, hp⟩ := hc.readLatestPredictedValue hsA (hbelow _ _ hsA) hva
  obtain ⟨vv₁, vv', hs₁, hi, hrep⟩ := hc.insertFinal hl hs hg hv
  exact ⟨bv, _, _, vv₁, vv', hbv, hp, by simp [snapshotDeltaEntry, hb], hs₁, hi, hrep, hc.setValue hrep⟩

omit hids hread in
/-- Once every other listed field is replaced, the base of a derived string predicts, at the end
of the transaction, the snapshot the derived string reads at depth one. -/
theorem NonDerivedReplaced.readLatestPredictedValue_succ {s₁ : VersionedDelayedFields K}
    (hc : s.CommittedAt s₁ idx) (hnd : s.NonDerivedReplaced s₁ idx) {baseId : K} {σ : Nat}
    (h : s.readCheckedDepth baseId (idx + 1) 1 = some (.ok (.snapshot σ))) :
    ∃ bv, s₁.values baseId = some bv ∧
      bv.readLatestPredictedValue (idx + 1) = some (.ok (.snapshot σ)) := by
  rcases hs : s.values baseId with _ | vv
  · rw [readCheckedDepth, hs] at h
    simp at h
  rcases hg : vv.get idx with _ | e
  · -- no entry at `idx`: the field is as it was, and reads its value below
    have hs₁ : s₁.values baseId = some vv := by
      rcases hc baseId with h' | ⟨⟨vv', e, hs', hg', -⟩, -⟩
      · rw [h', hs]
      · rw [hs] at hs'
        cases hs'
        rw [hg] at hg'
        cases hg'
    have hr : vv.read (idx + 1) = some (VersionedValue.okValue (vv.valueBelow idx)) :=
      (VersionedValue.read_succ_of_get_none hg).trans (VersionedValue.read_of_valuesBelow (hbelow _ _ hs))
    rcases hu : vv.valueBelow idx with _ | u
    · rw [readCheckedDepth, hs] at h
      simp [hr, hu, VersionedValue.okValue] at h
    · rw [readCheckedDepth_of_value hs (by rw [hr, hu]; rfl)] at h
      obtain rfl := Except.ok.inj (Option.some.inj h)
      exact ⟨vv, hs₁, (VersionedValue.readLatestPredictedValue_succ_of_get_none hg).trans
        (VersionedValue.readLatestPredictedValue_of_valuesBelow (hbelow _ _ hs) hu)⟩
  cases hd : e.isDerived
  · -- replaced by the first two passes with what it reads
    obtain ⟨-, vv', v, hs', hv, hs₁⟩ := hnd baseId vv e hs hg hd
    rw [hs] at hs'
    obtain rfl := Option.some.inj hs'
    rw [readCheckedDepth_succ_of_not_derived hbelow hs hg (hnoest _ _ _ hs hg) hd (by omega), hv] at h
    obtain rfl := Except.ok.inj (Option.some.inj h)
    exact ⟨_, hs₁, VersionedValue.readLatestPredictedValue_succ_of_value
      (VersionedValue.get_setEntry_self hg)⟩
  · exact absurd h (readCheckedDepth_ne_snapshot_of_derived hs hg hd (by omega))

/-- One derived string of the third pass: its base snapshot predicts the value after the
transaction, which the formula turns into what the string reads. -/
theorem derivedPass_step {s₁ : VersionedDelayedFields K} (hc : s.CommittedAt s₁ idx)
    (hnd : s.NonDerivedReplaced s₁ idx) {t : K × K × SnapshotToStringFormula}
    (ht : s.DerivedItem idx t) :
    ∃ bv prev newEntry vv vv', s₁.values t.2.1 = some bv ∧
      bv.readLatestPredictedValue (idx + 1) = some (.ok prev) ∧ derivedEntry t.2.2 prev = .ok newEntry ∧
      s₁.values t.1 = some vv ∧ vv.insertFinalValue idx newEntry = some vv' ∧
      s.Replaced (s₁.setValue t.1 vv') idx t.1 ∧
      (s.CommittedAt (s₁.setValue t.1 vv') idx ∧ s.NonDerivedReplaced (s₁.setValue t.1 vv') idx) := by
  obtain ⟨id, S, formula⟩ := t
  obtain ⟨vv, hs, hg⟩ := ht
  have hl : s.Listed idx id := ⟨vv, _, hs, hg, hnoest _ _ _ hs hg⟩
  obtain ⟨v, hv⟩ := hread id ((hids id).2 ⟨vv, _, hs, hg⟩)
  obtain ⟨-, σ, hσ, rfl⟩ := read_succ_of_snapshotDerived hs hg hv
  obtain ⟨bv, hbv, hp⟩ := hnd.readLatestPredictedValue_succ hbelow hnoest hc hσ
  obtain ⟨vv₁, vv', hs₁, hi, hrep⟩ := hc.insertFinal hl hs hg hv
  exact ⟨bv, _, _, vv₁, vv', hbv, hp, rfl, hs₁, hi, hrep, hc.setValue hrep,
    fun id' vv e hs' hg' hd => (hnd id' vv e hs' hg' hd).setValue hrep⟩

/-- The three passes of `try_commit` at the index the block commits next: the call succeeds, and
the state it leaves is `s` with every listed field replaced. -/
theorem tryCommit_committedAt (hidx : idx = s.nextIdxToCommit) :
    ∃ s', s.tryCommit idx ids = some (s', .ok ()) ∧ s'.nextIdxToCommit = idx + 1 ∧
      s.CommittedAt s' idx ∧ ∀ id ∈ ids, s.Replaced s' idx id := by
  obtain ⟨s₂, tD, tR, h₁, hn₁, hc₂, hD, hR, -, -, -, hall⟩ :=
    commitFirstPass_run hbelow hids hnoest hread ids s [] [] (fun _ h => h) (.refl s idx)
      (by simp) (by simp)
  obtain ⟨s₃, h₂, hn₂, hc₃, hmono₃, hall₃⟩ := commitQueued_run (I := fun s₁ => s.CommittedAt s₁ idx)
    tD (fun s₁ hc t ht => deltaPass_step hbelow hids hnoest hread hc (hD t ht)) s₂ hc₂
  -- after the second pass only derived strings wait
  have hnd₃ : s.NonDerivedReplaced s₃ idx := by
    intro id vv e hs hg hd
    rcases hall id ((hids id).2 ⟨vv, e, hs, hg⟩) with hr | ⟨t, ht, rfl⟩ | ⟨t, ht, rfl⟩
    · exact hmono₃ _ hr
    · exact hall₃ t ht
    · obtain ⟨vv', hs', hg'⟩ := hR t ht
      rw [hs] at hs'
      cases hs'
      rw [hg] at hg'
      cases hg'
      simp [VersionEntry.isDerived] at hd
  obtain ⟨s₄, h₃, hn₃, ⟨hc₄, -⟩, hmono₄, hall₄⟩ :=
    commitQueued_run (I := fun s₁ => s.CommittedAt s₁ idx ∧ s.NonDerivedReplaced s₁ idx) tR
      (fun s₁ hI t ht => derivedPass_step hbelow hids hnoest hread hI.1 hI.2 (hR t ht)) s₃ ⟨hc₃, hnd₃⟩
  have hn : s₄.nextIdxToCommit = idx := by rw [hn₃, hn₂, hn₁, hidx]
  refine ⟨{ s₄ with nextIdxToCommit := s₄.nextIdxToCommit + 1 }, ?_, by simp [hn], hc₄,
    fun id hid => ?_⟩
  · rw [tryCommit, if_neg (not_not.2 hidx), h₁]
    simp only [h₂, h₃, if_pos hn.symm]
  · rcases hall id hid with hr | ⟨t, ht, rfl⟩ | ⟨t, ht, rfl⟩
    · exact hmono₄ _ (hmono₃ _ hr)
    · exact hmono₄ _ (hall₃ t ht)
    · exact hall₄ t ht

/-- At the index the block commits next, and with the entries below it already values,
`try_commit` succeeds, moves the commit index on, and turns the entry at `idx` of each listed
field into the value the field read at `idx + 1`; the other fields are left as they were. -/
theorem tryCommit_materializes_reads (hidx : idx = s.nextIdxToCommit) :
    ∃ s', s.tryCommit idx ids = some (s', .ok ()) ∧ s'.nextIdxToCommit = idx + 1 ∧
      (∀ id ∉ ids, s'.values id = s.values id) ∧
      ∀ id ∈ ids, ∃ vv v, s.values id = some vv ∧ s.read id (idx + 1) = some (.ok v) ∧
        s'.values id = some (vv.setEntry idx (.value v none)) := by
  obtain ⟨s', hrun, hnext, hc, hall⟩ := tryCommit_committedAt hbelow hids hnoest hread hidx
  refine ⟨s', hrun, hnext, fun id hid => ?_, fun id hid => (hall id hid).2⟩
  -- a field outside `ids` has no entry at `idx`, so no pass replaced it
  rcases hc id with h | ⟨⟨vv, e, hs, hg, -⟩, -⟩
  · exact h
  · exact absurd ((hids id).2 ⟨vv, e, hs, hg⟩) hid

end TryCommit

/-- The delta of an aggregator with limit 100 that adds one. -/
def addOne : DeltaOp := ⟨⟨1, 0, none, none⟩, 100, .positive 1⟩

/-- A block whose transaction 0 adds one to an aggregator at 5 (`true`) and takes a snapshot of it
into a field the block creates (`false`). -/
def addOneAndSnapshot : VersionedDelayedFields Bool where
  values id := some (if id then
      { versionedMap := [(0, .apply (.aggregatorDelta addOne))], sorted := by simp,
        baseValue := some (.aggregator 5), readEstimateDeltas := false }
    else
      { versionedMap := [(0, .apply (.snapshotDelta true addOne))], sorted := by simp,
        baseValue := none, readEstimateDeltas := false })
  nextIdxToCommit := 0

theorem tryCommit_materializes_reads_addOneAndSnapshot :
    ∃ s', addOneAndSnapshot.tryCommit 0 [true, false] = some (s', .ok ()) ∧
      s'.nextIdxToCommit = 0 + 1 ∧
      (∀ id ∉ [true, false], s'.values id = addOneAndSnapshot.values id) ∧
      ∀ id ∈ [true, false], ∃ vv v, addOneAndSnapshot.values id = some vv ∧
        addOneAndSnapshot.read id (0 + 1) = some (.ok v) ∧
        s'.values id = some (vv.setEntry 0 (.value v none)) :=
  tryCommit_materializes_reads
    (fun _ _ _ p hp => absurd (VersionedValue.mem_rangeBelow.1 hp).2 (Nat.not_lt_zero _))
    (fun id => ⟨fun _ => by cases id <;> exact ⟨_, _, rfl, rfl⟩, fun _ => by cases id <;> simp⟩)
    (fun id vv e hs hg => by
      cases id <;> cases hs <;> cases hg <;> rfl)
    (fun id _ => by
      cases id
      · exact ⟨_, by
          rw [read, readCheckedDepth_of_dependentApply rfl rfl (by decide) (by omega),
            readCheckedDepth_of_value rfl rfl]
          rfl⟩
      · exact ⟨_, readCheckedDepth_of_value rfl rfl⟩)
    rfl

end VersionedDelayedFields

end CreditChain.DelayedFields
