import CreditChain.MvHashMap.VersionedData

/-!
# Reads of an aggregator v1 key against the sequential reference

What `read` must return at an aggregator v1 key, where transactions write `u128` values (or
delete them) and record deltas: with `w` the highest write below the reader and `d₁, …, dₘ` the
deltas between, in index order, the write itself when there is no delta or it is a deletion, and
otherwise the value the deltas take it to by `apply_to` one after another
(`SequentialOutcome`).  Without a write below, the merged deltas are returned unresolved, or a
`DeltaApplicationFailure` when their merge failed, which happens only when no base gets through
all of them.

`read_sequentialOutcome` proves it for the entries `AggregatorEntries` describes: no estimates,
well-formed deltas under one limit, writes without a layout, and shortcuts that agree with the
entries below them.  The traversal is one induction over `readBelow`, whose accumulator stands
for the deltas met so far (`AccumulatorFor`); the merge step is sequential composition of
delta ops (`CreditChain.DeltaOp.denote_createMergedDelta`).
-/

namespace CreditChain

/-- Applying deltas one after another with `apply_to`, in the order of the list. -/
def applyDeltas : List DeltaOp → Nat → Option Nat
  | [], x => some x
  | d :: ds, x => (d.applyTo x).toOption.bind (applyDeltas ds)

@[simp] theorem applyDeltas_nil (x : Nat) : applyDeltas [] x = some x := rfl

theorem applyDeltas_cons (d : DeltaOp) (ds : List DeltaOp) (x : Nat) :
    applyDeltas (d :: ds) x = (d.applyTo x).toOption.bind (applyDeltas ds) := rfl

theorem applyDeltas_append (ds es : List DeltaOp) (x : Nat) :
    applyDeltas (ds ++ es) x = (applyDeltas ds x).bind (applyDeltas es) := by
  induction ds generalizing x with
  | nil => rfl
  | cons d ds ih =>
    simp only [List.cons_append, applyDeltas_cons, Option.bind_assoc]
    congr 1
    funext y
    exact ih y

/-- A well-formed op applies as it denotes. -/
theorem DeltaOp.toOption_applyTo {op : DeltaOp} (hw : op.WellFormed) (x : Nat) :
    (op.applyTo x).toOption = op.denote x := by
  cases h : op.applyTo x with
  | ok z => simp [(DeltaOp.applyTo_eq_ok_iff_denote hw).1 h]
  | error e => simp [(DeltaOp.applyTo_eq_error hw h).2]

namespace VersionedValue

variable {V L : Type} [TransactionWrite V]

/-- The entries below shifted index `i` down to the first write, shortcuts ignored: the deltas
met on the way in the order they apply (lowest first), and the write (its shifted index,
incarnation and value) if there is one. -/
def scanBelow (versionedMap : Nat → Option (Entry V L)) :
    Nat → List DeltaOp × Option (Nat × Nat × ValueWithLayout V L)
  | 0 => ([], none)
  | i + 1 =>
    match versionedMap i with
    | none => scanBelow versionedMap i
    | some entry =>
      match entry.value with
      | .resourceWrite incarnation valueWithLayout _ => ([], some (i, incarnation, valueWithLayout))
      | .delta op _ => ((scanBelow versionedMap i).1 ++ [op], (scanBelow versionedMap i).2)

section ScanSteps

variable {versionedMap : Nat → Option (Entry V L)} {i : Nat}

omit [TransactionWrite V] in
theorem scanBelow_succ (versionedMap : Nat → Option (Entry V L)) (i : Nat) :
    scanBelow versionedMap (i + 1) =
      match versionedMap i with
      | none => scanBelow versionedMap i
      | some entry =>
        match entry.value with
        | .resourceWrite incarnation valueWithLayout _ => ([], some (i, incarnation, valueWithLayout))
        | .delta op _ => ((scanBelow versionedMap i).1 ++ [op], (scanBelow versionedMap i).2) :=
  rfl

omit [TransactionWrite V] in
theorem scanBelow_succ_of_none (h : versionedMap i = none) :
    scanBelow versionedMap (i + 1) = scanBelow versionedMap i := by
  rw [scanBelow_succ, h]

omit [TransactionWrite V] in
theorem scanBelow_succ_of_write {entry : Entry V L} {incarnation : Nat} {v : ValueWithLayout V L}
    {dependencies : Finset (Nat × Nat)} (h : versionedMap i = some entry)
    (hv : entry.value = .resourceWrite incarnation v dependencies) :
    scanBelow versionedMap (i + 1) = ([], some (i, incarnation, v)) := by
  rw [scanBelow_succ, h]
  dsimp only
  rw [hv]

omit [TransactionWrite V] in
theorem scanBelow_succ_of_delta {entry : Entry V L} {op : DeltaOp} {shortcut : Option Nat}
    (h : versionedMap i = some entry) (hv : entry.value = .delta op shortcut) :
    scanBelow versionedMap (i + 1) =
      ((scanBelow versionedMap i).1 ++ [op], (scanBelow versionedMap i).2) := by
  rw [scanBelow_succ, h]
  dsimp only
  rw [hv]

end ScanSteps

/-- The sequential reference: what a read must return of the deltas `ds` (in the order they
apply) above the write `w`. -/
def SequentialOutcome (maxValue : Nat) :
    List DeltaOp × Option (Nat × Nat × ValueWithLayout V L) →
      Except MVDataError (MVDataOutput V L) → Prop
  | ([], none), out => out = .error .uninitialized
  | (d :: ds, none), out =>
    (∃ D : DeltaOp, out = .error (.unresolved D) ∧ D.WellFormed ∧ D.maxValue = maxValue ∧
        ∀ x z, D.applyTo x = .ok z ↔ applyDeltas (d :: ds) x = some z) ∨
      (out = .error .deltaApplicationFailure ∧ ∀ x, applyDeltas (d :: ds) x = none)
  | ([], some (k, incarnation, v)), out => out = .ok (.versioned (versionAt k incarnation) v)
  | (d :: ds, some (k, incarnation, v)), out =>
    match v.extractValueNoLayout.map TransactionWrite.asU128 with
    | some (.ok none) => out = .ok (.versioned (versionAt k incarnation) v)
    | some (.ok (some x)) =>
      out = (applyDeltas (d :: ds) x).elim (.error .deltaApplicationFailure) fun z => .ok (.resolved z)
    | _ => False

/-- A shortcut agrees with the entries below: they resolve to a `u128` write and the deltas
take it to the shortcut. -/
def ShortcutSound (scan : List DeltaOp × Option (Nat × Nat × ValueWithLayout V L))
    (shortcut : Nat) : Prop :=
  ∃ k incarnation v x, scan.2 = some (k, incarnation, v) ∧
    v.extractValueNoLayout.map TransactionWrite.asU128 = some (.ok (some x)) ∧
    applyDeltas scan.1 x = some shortcut

/-- The entries of an aggregator v1 key with limit `maxValue`. -/
structure AggregatorEntries (maxValue : Nat) (versionedMap : Nat → Option (Entry V L)) : Prop where
  noEstimate : ∀ i entry, versionedMap i = some entry → entry.flag = false
  deltaWellFormed : ∀ i entry op shortcut, versionedMap i = some entry →
    entry.value = .delta op shortcut → op.WellFormed ∧ op.maxValue = maxValue
  writeValue : ∀ i entry incarnation v dependencies, versionedMap i = some entry →
    entry.value = .resourceWrite incarnation v dependencies →
      ∃ x, v.extractValueNoLayout.map TransactionWrite.asU128 = some (.ok x)
  shortcutSound : ∀ i entry op shortcut, versionedMap i = some entry →
    entry.value = .delta op (some shortcut) → ShortcutSound (scanBelow versionedMap (i + 1)) shortcut

/-- The accumulator of `read` stands for the deltas `ds` met so far, in the order they apply. -/
def AccumulatorFor (maxValue : Nat) : Option (Except Unit DeltaOp) → List DeltaOp → Prop
  | none, ds => ds = []
  | some (.ok a), ds => ds ≠ [] ∧ a.WellFormed ∧ a.maxValue = maxValue ∧ ∀ x, a.denote x = applyDeltas ds x
  | some (.error ()), ds => ds ≠ [] ∧ ∀ x, applyDeltas ds x = none

variable {maxValue : Nat}

/-! ### The reference, case by case -/

section Reference

variable {out : Except MVDataError (MVDataOutput V L)} {ds : List DeltaOp} {k incarnation : Nat}
  {v : ValueWithLayout V L}

theorem sequentialOutcome_deletion
    (hv : v.extractValueNoLayout.map TransactionWrite.asU128 = some (.ok none)) :
    SequentialOutcome maxValue (ds, some (k, incarnation, v))
      (.ok (.versioned (versionAt k incarnation) v)) := by
  cases ds with
  | nil => rfl
  | cons d ds =>
    -- the write is a deletion: the deltas above it are not applied
    delta SequentialOutcome
    dsimp only
    rw [hv]

theorem sequentialOutcome_value (hds : ds ≠ []) {x : Nat}
    (hv : v.extractValueNoLayout.map TransactionWrite.asU128 = some (.ok (some x))) :
    SequentialOutcome maxValue (ds, some (k, incarnation, v))
      ((applyDeltas ds x).elim (.error .deltaApplicationFailure) fun z => .ok (.resolved z)) := by
  obtain ⟨d, ds, rfl⟩ := List.exists_cons_of_ne_nil hds
  delta SequentialOutcome
  dsimp only
  rw [hv]

end Reference

/-! ### The accumulator -/

theorem AccumulatorFor.ne_nil {acc : Except Unit DeltaOp} {ds : List DeltaOp}
    (hacc : AccumulatorFor maxValue (some acc) ds) : ds ≠ [] := by
  cases acc with
  | error u => exact hacc.1
  | ok a => exact hacc.1

omit [TransactionWrite V] in
/-- The accumulator applied to a value gives what the deltas it stands for give. -/
theorem applyAccumulator_eq {acc : Except Unit DeltaOp} {ds : List DeltaOp}
    (hacc : AccumulatorFor maxValue (some acc) ds) (x : Nat) :
    (applyAccumulator acc x : Except MVDataError (MVDataOutput V L)) =
      (applyDeltas ds x).elim (.error .deltaApplicationFailure) fun z => .ok (.resolved z) := by
  cases acc with
  | error u =>
    obtain ⟨-, hnone⟩ := hacc
    simp [applyAccumulator, hnone x]
  | ok a =>
    obtain ⟨-, hw, -, hden⟩ := hacc
    rw [← hden x]
    cases h : a.applyTo x with
    | ok z => simp [applyAccumulator, h, (DeltaOp.applyTo_eq_ok_iff_denote hw).1 h]
    | error e => simp [applyAccumulator, h, (DeltaOp.applyTo_eq_error hw h).2]

omit [TransactionWrite V] in
/-- A delta met by the traversal is merged under the accumulator, which then stands for the
deltas met so far with the new one applying first. -/
theorem accumulatorFor_merge {acc : Except Unit DeltaOp} {ds : List DeltaOp} {d : DeltaOp}
    (hacc : AccumulatorFor maxValue (some acc) ds) (hd : d.WellFormed) (hdm : d.maxValue = maxValue) :
    AccumulatorFor maxValue (some (mergeAccumulator acc d)) (d :: ds) := by
  have happly : ∀ x, applyDeltas (d :: ds) x = (d.denote x).bind (applyDeltas ds) := fun x => by
    rw [applyDeltas_cons, DeltaOp.toOption_applyTo hd]
  cases acc with
  | error u =>
    obtain ⟨-, hnone⟩ := hacc
    refine ⟨List.cons_ne_nil d ds, fun x => ?_⟩
    rw [happly]
    cases d.denote x <;> simp [hnone]
  | ok a =>
    obtain ⟨-, ha, ham, hden⟩ := hacc
    have hm : d.maxValue = a.maxValue := hdm.trans ham.symm
    -- the merge of well-formed ops under one limit is their composition, or no base gets through
    rcases DeltaOp.createMergedDelta_cases hm hd ha with ⟨h', -, s, -, heq⟩ | ⟨e, -, heq⟩
    · obtain ⟨hw, hcm⟩ := DeltaOp.WellFormed.createMergedDelta hm hd ha heq
      simp only [mergeAccumulator, Except.bind, DeltaOp.mergeWithPreviousDelta, heq]
      refine ⟨List.cons_ne_nil d ds, hw, hcm.trans ham, fun x => ?_⟩
      rw [DeltaOp.denote_createMergedDelta hm hd ha heq, happly]
      congr 1
      funext y
      exact hden y
    · simp only [mergeAccumulator, Except.bind, DeltaOp.mergeWithPreviousDelta, heq]
      refine ⟨List.cons_ne_nil d ds, fun x => ?_⟩
      rw [happly, ← DeltaOp.denote_eq_none_of_createMergedDelta_eq_error hm hd ha heq x]
      congr 1
      funext y
      exact (hden y).symm

/-! ### The traversal -/

section Traversal

variable {versionedMap : Nat → Option (Entry V L)}

/-- What the traversal returns at the bottom: the accumulated deltas unresolved, a failure when
their merge failed, and `Uninitialized` when there are none. -/
private theorem readBelow_zero_sequentialOutcome {acc : Option (Except Unit DeltaOp)}
    {above : List DeltaOp} (hacc : AccumulatorFor maxValue acc above) :
    ∃ out, (readBelow versionedMap 0 acc).1 = some out ∧
      SequentialOutcome maxValue (above, none) out := by
  match acc, above, hacc with
  | none, _, rfl => exact ⟨_, rfl, rfl⟩
  | some (.ok a), d :: ds, ⟨_, hw, ham, hden⟩ =>
    refine ⟨_, rfl, .inl ⟨a, rfl, hw, ham, fun x z => ?_⟩⟩
    rw [DeltaOp.applyTo_eq_ok_iff_denote hw, hden]
  | some (.error ()), d :: ds, ⟨_, hnone⟩ => exact ⟨_, rfl, .inr ⟨rfl, hnone⟩⟩

/-- The traversal from shifted index `i` with an accumulator standing for the deltas `above`
returns the sequential reference of the entries below `i` followed by `above`. -/
theorem readBelow_sequentialOutcome (hm : AggregatorEntries maxValue versionedMap) (i : Nat) :
    ∀ {acc : Option (Except Unit DeltaOp)} {above : List DeltaOp},
      AccumulatorFor maxValue acc above →
        ∃ out, (readBelow versionedMap i acc).1 = some out ∧
          SequentialOutcome maxValue
            ((scanBelow versionedMap i).1 ++ above, (scanBelow versionedMap i).2) out := by
  -- induction on the shifted index, from any accumulator that stands for the deltas above
  induction i with
  | zero => exact fun hacc => readBelow_zero_sequentialOutcome hacc
  | succ i ih =>
    intro acc above hacc
    cases hi : versionedMap i with
    | none => simpa [readBelow, scanBelow_succ_of_none hi, hi] using ih hacc
    | some entry =>
      have hflag := hm.noEstimate i entry hi
      cases hv : entry.value with
      | resourceWrite incarnation v dependencies =>
        -- the traversal stops at the write
        have hscan : scanBelow versionedMap (i + 1) = ([], some (i, incarnation, v)) :=
          scanBelow_succ_of_write hi hv
        rw [hscan, List.nil_append]
        cases acc with
        | none =>
          subst hacc
          exact ⟨_, by simp [readBelow, hi, hflag, hv], rfl⟩
        | some a =>
          obtain ⟨x, hx⟩ := hm.writeValue i entry incarnation v dependencies hi hv
          cases x with
          | none =>
            exact ⟨_, by simp [readBelow, hi, hflag, hv, hx], sequentialOutcome_deletion hx⟩
          | some x =>
            refine ⟨applyAccumulator a x, by simp [readBelow, hi, hflag, hv, hx], ?_⟩
            rw [applyAccumulator_eq hacc]
            exact sequentialOutcome_value hacc.ne_nil hx
      | delta op shortcut =>
        -- the reference goes on below the delta; the traversal too, unless it has a shortcut
        have hscan : scanBelow versionedMap (i + 1) =
            ((scanBelow versionedMap i).1 ++ [op], (scanBelow versionedMap i).2) :=
          scanBelow_succ_of_delta hi hv
        obtain ⟨hw, hmax⟩ := hm.deltaWellFormed i entry op shortcut hi hv
        cases shortcut with
        | some s =>
          obtain ⟨k, incarnation, v, x, hw', hx, hs⟩ := hm.shortcutSound i entry op s hi hv
          rw [hscan] at hw' hs ⊢
          have hne : (scanBelow versionedMap i).1 ++ [op] ++ above ≠ [] := by simp
          -- the shortcut is what the entries below give, moved on by the deltas above
          have hval : applyDeltas ((scanBelow versionedMap i).1 ++ [op] ++ above) x =
              applyDeltas above s := by
            rw [applyDeltas_append, hs, Option.bind_some]
          have href : SequentialOutcome maxValue
              ((scanBelow versionedMap i).1 ++ [op] ++ above, some (k, incarnation, v))
              ((applyDeltas ((scanBelow versionedMap i).1 ++ [op] ++ above) x).elim
                (.error .deltaApplicationFailure) fun z => .ok (.resolved z)) :=
            sequentialOutcome_value hne hx
          rw [hval] at href
          rw [hw']
          cases acc with
          | none =>
            subst hacc
            exact ⟨.ok (.resolved s), by simp [readBelow, hi, hflag, hv], href⟩
          | some a =>
            refine ⟨applyAccumulator a s, by simp [readBelow, hi, hflag, hv], ?_⟩
            rwa [applyAccumulator_eq hacc]
        | none =>
          rw [hscan, List.append_assoc]
          cases acc with
          | none =>
            subst hacc
            have hacc' : AccumulatorFor maxValue (some (.ok op)) [op] :=
              ⟨List.cons_ne_nil op [], hw, hmax, fun x => by
                rw [applyDeltas_cons, DeltaOp.toOption_applyTo hw]
                cases op.denote x <;> rfl⟩
            simpa [readBelow, hi, hflag, hv] using ih hacc'
          | some a =>
            simpa [readBelow, hi, hflag, hv] using ih (accumulatorFor_merge hacc hw hmax)

end Traversal

/-- A read at an aggregator v1 key returns the sequential reference of the entries below the
reader. -/
theorem read_sequentialOutcome {self : VersionedValue V L}
    (hm : AggregatorEntries maxValue self.versionedMap) (r : Nat) :
    ∃ out, (self.read r none).1 = some out ∧
      SequentialOutcome maxValue (scanBelow self.versionedMap (r + 1)) out := by
  have hstart : AccumulatorFor maxValue none [] := rfl
  obtain ⟨out, hread, href⟩ := readBelow_sequentialOutcome hm (r + 1) hstart
  rw [List.append_nil] at href
  exact ⟨out, by simpa [read] using hread, href⟩

/-! ### Runs of writes, deltas and materializations -/

omit [TransactionWrite V] in
/-- Entries at or above shifted index `k` do not change the scan below `n ≤ k`. -/
theorem scanBelow_update_of_le {versionedMap : Nat → Option (Entry V L)} {k n : Nat}
    (entry : Option (Entry V L)) (hn : n ≤ k) :
    scanBelow (Function.update versionedMap k entry) n = scanBelow versionedMap n := by
  induction n with
  | zero => rfl
  | succ n ih =>
    have hne : n ≠ k := by omega
    rw [scanBelow_succ, scanBelow_succ, Function.update_of_ne hne, ih (by omega)]

omit [TransactionWrite V] in
/-- A shortcut recorded on a delta does not change any scan, which ignores shortcuts. -/
theorem scanBelow_update_shortcut {versionedMap : Nat → Option (Entry V L)} {k : Nat}
    {entry : Entry V L} {op : DeltaOp} {shortcut shortcut' : Option Nat} {flag : Bool}
    (hk : versionedMap k = some entry) (hv : entry.value = .delta op shortcut) (n : Nat) :
    scanBelow (Function.update versionedMap k (some ⟨.delta op shortcut', flag⟩)) n =
      scanBelow versionedMap n := by
  induction n with
  | zero => rfl
  | succ n ih =>
    by_cases hn : n = k
    · -- the delta at `k` keeps its op, whatever its shortcut
      subst hn
      rw [scanBelow_succ_of_delta (Function.update_self n _ versionedMap) rfl,
        scanBelow_succ_of_delta hk hv, ih]
    · rw [scanBelow_succ, scanBelow_succ, Function.update_of_ne hn, ih]

/-- A read that resolves to a value resolved a `u128` write below through the deltas: the
value is sound as a shortcut. -/
theorem shortcutSound_of_sequentialOutcome
    {scan : List DeltaOp × Option (Nat × Nat × ValueWithLayout V L)} {s : Nat}
    (h : SequentialOutcome maxValue scan (.ok (.resolved s))) : ShortcutSound scan s := by
  match scan, h with
  | ([], none), h => cases h
  | (d :: ds, none), .inl ⟨D, h, _⟩ => cases h
  | (d :: ds, none), .inr ⟨h, _⟩ => cases h
  | ([], some (k, incarnation, v)), h => cases h
  | (d :: ds, some (k, incarnation, v)), h =>
    simp only [SequentialOutcome] at h
    split at h
    · cases h
    · rename_i x hx
      refine ⟨k, incarnation, v, x, rfl, hx, ?_⟩
      cases hz : applyDeltas (d :: ds) x with
      | none => rw [hz] at h; cases h
      | some z => rw [hz] at h; cases h; rfl
    · exact h.elim

omit [TransactionWrite V] in
theorem recordDeltaShortcut_eq_some {entry entry' : Entry V L} {value : Nat}
    (h : recordDeltaShortcut entry value = some entry') :
    ∃ op shortcut, entry.value = .delta op shortcut ∧ entry' = ⟨.delta op (some value), entry.flag⟩ := by
  unfold recordDeltaShortcut at h
  split at h
  · rename_i op shortcut hv
    split at h
    · exact ⟨op, shortcut, hv, (Option.some.inj h).symm⟩
    · cases h
  · cases h

theorem aggregatorEntries_empty :
    AggregatorEntries maxValue (fun _ => (none : Option (Entry V L))) where
  noEstimate _ _ h := by cases h
  deltaWellFormed _ _ _ _ h := by cases h
  writeValue _ _ _ _ _ h := by cases h
  shortcutSound _ _ _ _ h := by cases h

omit [TransactionWrite V] in
/-- An entry of a map with one entry replaced is the new entry or an old one elsewhere. -/
theorem update_eq_some {versionedMap : Nat → Option (Entry V L)} {k i : Nat} {entry e : Entry V L}
    (h : Function.update versionedMap k (some entry) i = some e) :
    (i = k ∧ e = entry) ∨ (i ≠ k ∧ versionedMap i = some e) := by
  by_cases hik : i = k
  · subst hik
    rw [Function.update_self, Option.some.injEq] at h
    exact .inl ⟨rfl, h.symm⟩
  · rw [Function.update_of_ne hik] at h
    exact .inr ⟨hik, h⟩

/-- A new entry without a shortcut, above every shortcut, keeps the entries of an aggregator
key: only the scans from above it change, and no shortcut is read from there. -/
private theorem AggregatorEntries.insertAt {self : VersionedValue V L}
    (hm : AggregatorEntries maxValue self.versionedMap) {k : Nat} {entry : Entry V L}
    (hflag : entry.flag = false)
    (hdelta : ∀ op shortcut, entry.value = .delta op shortcut →
      op.WellFormed ∧ op.maxValue = maxValue ∧ shortcut = none)
    (hwrite : ∀ incarnation v dependencies, entry.value = .resourceWrite incarnation v dependencies →
      ∃ x, v.extractValueNoLayout.map TransactionWrite.asU128 = some (.ok x))
    (habove : ∀ j e op shortcut, self.versionedMap j = some e → e.value = .delta op (some shortcut) →
      j < k) :
    AggregatorEntries maxValue (self.insertAt k entry).versionedMap where
  noEstimate i e hi := by
    rcases update_eq_some hi with ⟨-, rfl⟩ | ⟨-, hi⟩
    · exact hflag
    · exact hm.noEstimate i e hi
  deltaWellFormed i e op shortcut hi hv := by
    rcases update_eq_some hi with ⟨-, rfl⟩ | ⟨-, hi⟩
    · exact (hdelta op shortcut hv).imp_right And.left
    · exact hm.deltaWellFormed i e op shortcut hi hv
  writeValue i e incarnation v deps hi hv := by
    rcases update_eq_some hi with ⟨-, rfl⟩ | ⟨-, hi⟩
    · exact hwrite incarnation v deps hv
    · exact hm.writeValue i e incarnation v deps hi hv
  shortcutSound i e op shortcut hi hv := by
    rcases update_eq_some hi with ⟨-, rfl⟩ | ⟨-, hi⟩
    · cases (hdelta op (some shortcut) hv).2.2
    · -- the shortcut lies below the new entry, so its scan does not reach it
      have hlt := habove i e op shortcut hi hv
      simp only [VersionedValue.insertAt]
      rw [scanBelow_update_of_le _ (by omega)]
      exact hm.shortcutSound i e op shortcut hi hv

/-- `add_delta` of a well-formed delta under the key's limit, above every shortcut. -/
theorem AggregatorEntries.addDelta {self : VersionedValue V L}
    (hm : AggregatorEntries maxValue self.versionedMap) {txnIdx : Nat} {op : DeltaOp}
    (hw : op.WellFormed) (hmax : op.maxValue = maxValue)
    (habove : ∀ j e op shortcut, self.versionedMap j = some e → e.value = .delta op (some shortcut) →
      j ≤ txnIdx) :
    AggregatorEntries maxValue (self.insertAt (txnIdx + 1) (.new (.delta op none))).versionedMap :=
  hm.insertAt rfl (fun _ _ h => by cases h; exact ⟨hw, hmax, rfl⟩) (fun _ _ _ h => by cases h)
    (fun j e op' s hj hv => Nat.lt_succ_of_le (habove j e op' s hj hv))

/-- `write_impl` of a value without a layout that is a `u128` or a deletion, above every
shortcut. -/
theorem AggregatorEntries.writeImpl {self self' : VersionedValue V L}
    (hm : AggregatorEntries maxValue self.versionedMap) {txnIdx incarnation : Nat}
    {value : ValueWithLayout V L} {dependencies : Finset (Nat × Nat)}
    (hvalue : ∃ x, value.extractValueNoLayout.map TransactionWrite.asU128 = some (.ok x))
    (habove : ∀ j e op shortcut, self.versionedMap j = some e → e.value = .delta op (some shortcut) →
      j ≤ txnIdx)
    (h : self.writeImpl txnIdx incarnation value dependencies = some self') :
    AggregatorEntries maxValue self'.versionedMap := by
  rw [writeImpl_eq_some h]
  exact hm.insertAt rfl (fun _ _ h => by cases h) (fun _ _ _ h => by cases h; exact hvalue)
    (fun j e op' s hj hv => Nat.lt_succ_of_le (habove j e op' s hj hv))

/-- `materialize_delta` keeps the entries of an aggregator key and changes no scan: the shortcut
it records is the value the read through the delta resolves to. -/
theorem AggregatorEntries.materializeDelta {self self' : VersionedValue V L} {txnIdx : Nat}
    {result : Except DeltaOp Nat} (hm : AggregatorEntries maxValue self.versionedMap)
    (h : self.materializeDelta txnIdx = some (result, self')) :
    AggregatorEntries maxValue self'.versionedMap ∧
      ∀ n, scanBelow self'.versionedMap n = scanBelow self.versionedMap n := by
  obtain ⟨out, hread, href⟩ := read_sequentialOutcome hm (txnIdx + 1)
  unfold VersionedValue.materializeDelta at h
  rw [hread] at h
  rcases out with (e | (s | ⟨version, v⟩))
  · -- only an unresolved read goes through, and it leaves the entries as they are
    cases e <;> simp at h
    obtain ⟨-, rfl⟩ := h
    exact ⟨hm, fun _ => rfl⟩
  · simp only [bind, Option.bind_eq_some_iff, pure, Option.some.injEq, Prod.mk.injEq] at h
    obtain ⟨entry, hentry, entry', hrec, -, rfl⟩ := h
    obtain ⟨op, shortcut, hv, rfl⟩ := recordDeltaShortcut_eq_some hrec
    have hscan : ∀ n, scanBelow (self.insertAt (txnIdx + 1)
        ⟨.delta op (some s), entry.flag⟩).versionedMap n = scanBelow self.versionedMap n :=
      scanBelow_update_shortcut hentry hv
    refine ⟨⟨fun i e hi => ?_, fun i e op' sc hi hv' => ?_, fun i e incarnation v deps hi hv' => ?_,
      fun i e op' sc hi hv' => ?_⟩, hscan⟩
    · rcases update_eq_some hi with ⟨-, rfl⟩ | ⟨-, hi⟩
      · exact hm.noEstimate _ entry hentry
      · exact hm.noEstimate i e hi
    · rcases update_eq_some hi with ⟨-, rfl⟩ | ⟨-, hi⟩
      · cases hv'
        exact hm.deltaWellFormed _ entry op shortcut hentry hv
      · exact hm.deltaWellFormed i e op' sc hi hv'
    · rcases update_eq_some hi with ⟨-, rfl⟩ | ⟨-, hi⟩
      · cases hv'
      · exact hm.writeValue i e incarnation v deps hi hv'
    · rw [hscan]
      rcases update_eq_some hi with ⟨rfl, rfl⟩ | ⟨-, hi⟩
      · cases hv'
        exact shortcutSound_of_sequentialOutcome href
      · exact hm.shortcutSound i e op' sc hi hv'
  · simp at h

end VersionedValue

/-! ### Runs at one key -/

/-- A write or a delta of one transaction at a key, as `write` and `add_delta` record them. -/
inductive KeyUpdate (V L : Type)
  | write (txnIdx incarnation : Nat) (data : V) (maybeLayout : Option L)
  | delta (txnIdx : Nat) (op : DeltaOp)

/-- An update an aggregator v1 key with limit `maxValue` receives: a `u128` value or a deletion
with no layout, or a well-formed delta under the limit. -/
def KeyUpdate.ForAggregator {V L : Type} [TransactionWrite V] (maxValue : Nat) :
    KeyUpdate V L → Prop
  | .write _ _ data maybeLayout => maybeLayout = none ∧ ∃ x, TransactionWrite.asU128 data = .ok x
  | .delta _ op => op.WellFormed ∧ op.maxValue = maxValue

namespace VersionedData

open VersionedValue

variable {K V L : Type} [DecidableEq K] [TransactionWrite V] {maxValue : Nat}

/-- The updates recorded at a key one after another (`none` if a write panics). -/
def recordUpdates (key : K) : VersionedData K V L → List (KeyUpdate V L) →
    Option (VersionedData K V L)
  | d, [] => some d
  | d, .write txnIdx incarnation data maybeLayout :: updates =>
    (d.write key txnIdx incarnation data maybeLayout).bind fun d => recordUpdates key d updates
  | d, .delta txnIdx op :: updates => recordUpdates key (d.addDelta key txnIdx op) updates

/-- The deltas of the given transactions materialized one after another (`none` if one
panics). -/
def materializeDeltas (key : K) : VersionedData K V L → List Nat → Option (VersionedData K V L)
  | d, [] => some d
  | d, txnIdx :: txnIdxs =>
    (d.materializeDelta key txnIdx).bind fun (_, d) => materializeDeltas key d txnIdxs

/-- No delta at the key has a shortcut yet. -/
def NoShortcut (versionedMap : Nat → Option (Entry V L)) : Prop :=
  ∀ j e op shortcut, versionedMap j = some e → e.value ≠ .delta op (some shortcut)

/-- Recording updates keeps the entries of an aggregator key, before any materialization. -/
theorem recordUpdates_aggregatorEntries (key : K) :
    ∀ (updates : List (KeyUpdate V L)) (d d' : VersionedData K V L),
      (∀ u ∈ updates, u.ForAggregator maxValue) →
      AggregatorEntries maxValue (d.entryOrDefault key).versionedMap →
      NoShortcut (d.entryOrDefault key).versionedMap →
      recordUpdates key d updates = some d' →
        AggregatorEntries maxValue (d'.entryOrDefault key).versionedMap ∧
          NoShortcut (d'.entryOrDefault key).versionedMap := by
  -- induction on the updates, from any state of the key
  intro updates
  induction updates with
  | nil => intro d d' _ hm hns h; cases h; exact ⟨hm, hns⟩
  | cons u updates ih =>
    intro d d' hups hm hns h
    have habove : ∀ (t : Nat) j e op shortcut, (d.entryOrDefault key).versionedMap j = some e →
        e.value = .delta op (some shortcut) → j ≤ t :=
      fun _ j e op shortcut hj hv => absurd hv (hns j e op shortcut hj)
    -- a new entry carries no shortcut, so none appears
    have hns' : ∀ (k : Nat) (entry : Entry V L), (∀ op s, entry.value ≠ .delta op (some s)) →
        NoShortcut ((d.entryOrDefault key).insertAt k entry).versionedMap := by
      intro k entry hentry j e op shortcut hj
      rcases update_eq_some hj with ⟨-, rfl⟩ | ⟨-, hj⟩
      · exact hentry op shortcut
      · exact hns j e op shortcut hj
    cases u with
    | write txnIdx incarnation data maybeLayout =>
      obtain ⟨rfl, x, hx⟩ := hups _ List.mem_cons_self
      simp only [recordUpdates, VersionedData.write, Option.map_eq_some_iff, Option.bind_eq_some_iff] at h
      obtain ⟨d₁, ⟨v, hv, rfl⟩, h⟩ := h
      refine ih _ _ (fun u hu => hups u (List.mem_cons_of_mem _ hu)) ?_ ?_ h
      · simpa using hm.writeImpl ⟨x, by simp [ValueWithLayout.extractValueNoLayout, hx]⟩
          (habove txnIdx) hv
      · rw [entryOrDefault_setValue, writeImpl_eq_some hv]
        exact hns' _ _ (fun _ _ h => by simp [Entry.new] at h)
    | delta txnIdx op =>
      obtain ⟨hw, hmax⟩ := hups _ List.mem_cons_self
      refine ih _ _ (fun u hu => hups u (List.mem_cons_of_mem _ hu)) ?_ ?_ h
      · simpa [VersionedData.addDelta] using hm.addDelta hw hmax (habove txnIdx)
      · simp only [VersionedData.addDelta, entryOrDefault_setValue]
        exact hns' _ _ (fun _ _ h => by simp [Entry.new] at h)

/-- `materialize_delta` at a present key works on its versioned value. -/
private theorem materializeDelta_eq_some {d d' : VersionedData K V L} {key : K} {txnIdx : Nat}
    {result : Except DeltaOp Nat} (h : d.materializeDelta key txnIdx = some (result, d')) :
    ∃ v v', d.values key = some v ∧ v.materializeDelta txnIdx = some (result, v') ∧
      d' = d.setValue key v' := by
  simp only [VersionedData.materializeDelta, bind, Option.bind_eq_some_iff, pure,
    Option.some.injEq, Prod.mk.injEq] at h
  obtain ⟨v, hv, ⟨result', v'⟩, hmat, rfl, rfl⟩ := h
  exact ⟨v, v', hv, hmat, rfl⟩

/-- Materializations keep the entries of an aggregator key and change no scan. -/
theorem materializeDeltas_aggregatorEntries (key : K) :
    ∀ (txnIdxs : List Nat) (d d' : VersionedData K V L),
      AggregatorEntries maxValue (d.entryOrDefault key).versionedMap →
      materializeDeltas key d txnIdxs = some d' →
        AggregatorEntries maxValue (d'.entryOrDefault key).versionedMap ∧
          ∀ n, scanBelow (d'.entryOrDefault key).versionedMap n =
            scanBelow (d.entryOrDefault key).versionedMap n := by
  intro txnIdxs
  induction txnIdxs with
  | nil => intro d d' hm h; cases h; exact ⟨hm, fun _ => rfl⟩
  | cons txnIdx txnIdxs ih =>
    intro d d' hm h
    simp only [materializeDeltas, Option.bind_eq_some_iff] at h
    obtain ⟨⟨result, d₁⟩, h₁, h⟩ := h
    obtain ⟨v, v', hv, hmat, rfl⟩ := materializeDelta_eq_some h₁
    have hent : d.entryOrDefault key = v := by simp [entryOrDefault_eq, hv]
    rw [hent] at hm ⊢
    obtain ⟨hm₁, hscan₁⟩ := hm.materializeDelta hmat
    obtain ⟨hm', hscan'⟩ := ih _ _ (by simpa using hm₁) h
    refine ⟨hm', fun n => ?_⟩
    rw [hscan' n, entryOrDefault_setValue, hscan₁ n]

/-- Reads without recording at an aggregator v1 key of limit `maxValue`, after any writes (of
`u128` values or deletions, without a layout) and well-formed deltas under the limit, in any
order, and again after any materializations: each returns the sequential reference of the entries
below the reader, which the materializations leave as they are. -/
theorem fetchDataNoRecord_sequentialOutcome (key : K) (d₀ : VersionedData K V L)
    (hfresh : d₀.values key = none) (updates : List (KeyUpdate V L))
    (hupdates : ∀ u ∈ updates, u.ForAggregator maxValue) {d₁ : VersionedData K V L}
    (h₁ : recordUpdates key d₀ updates = some d₁) (txnIdxs : List Nat) {d₂ : VersionedData K V L}
    (h₂ : materializeDeltas key d₁ txnIdxs = some d₂) (r : Nat) :
    ∃ out₁ out₂, d₁.fetchDataNoRecord key r = some out₁ ∧ d₂.fetchDataNoRecord key r = some out₂ ∧
      SequentialOutcome maxValue (scanBelow (d₁.entryOrDefault key).versionedMap (r + 1)) out₁ ∧
      SequentialOutcome maxValue (scanBelow (d₁.entryOrDefault key).versionedMap (r + 1)) out₂ := by
  have hempty : d₀.entryOrDefault key = ⟨fun _ => none⟩ := by simp [entryOrDefault_eq, hfresh]
  have h₀ : AggregatorEntries maxValue (d₀.entryOrDefault key).versionedMap := by
    rw [hempty]
    exact aggregatorEntries_empty
  have hns₀ : NoShortcut (d₀.entryOrDefault key).versionedMap := by
    rw [hempty]
    intro j e op shortcut h
    cases h
  obtain ⟨hm₁, -⟩ := recordUpdates_aggregatorEntries key updates d₀ d₁ hupdates h₀ hns₀ h₁
  obtain ⟨hm₂, hscan⟩ := materializeDeltas_aggregatorEntries key txnIdxs d₁ d₂ hm₁ h₂
  obtain ⟨out₁, hr₁, href₁⟩ := read_sequentialOutcome hm₁ r
  obtain ⟨out₂, hr₂, href₂⟩ := read_sequentialOutcome hm₂ r
  rw [hscan] at href₂
  exact ⟨out₁, out₂, by rw [fetchDataNoRecord_eq, hr₁], by rw [fetchDataNoRecord_eq, hr₂],
    href₁, href₂⟩

/-- A value whose bytes are a `u128` or nothing, as the multi-version data tests write them. -/
structure MockValue where
  maybeValue : Option Nat
  deriving DecidableEq, Repr

instance : TransactionWrite MockValue where
  asU128 v := .ok v.maybeValue
  bytesLen v := v.maybeValue.map fun _ => 16
  asStateValueMetadata v := v.maybeValue.map fun _ => ⟨none⟩

/-- Transaction 0 writes 5 and transaction 1 adds 3 under limit 10; the delta is materialized,
and transaction 2 reads. -/
theorem fetchDataNoRecord_sequentialOutcome_write_delta :
    ∃ d₁ d₂ : VersionedData Unit MockValue Unit,
      recordUpdates () ⟨fun _ => none⟩ [.write 0 0 ⟨some 5⟩ none,
        .delta 1 (DeltaOp.new (.positive 3) 10 ⟨3, 0, none, none⟩)] = some d₁ ∧
      materializeDeltas () d₁ [1] = some d₂ ∧
      ∃ out₁ out₂, d₁.fetchDataNoRecord () 2 = some out₁ ∧ d₂.fetchDataNoRecord () 2 = some out₂ ∧
        SequentialOutcome 10 (scanBelow (d₁.entryOrDefault ()).versionedMap 3) out₁ ∧
        SequentialOutcome 10 (scanBelow (d₁.entryOrDefault ()).versionedMap 3) out₂ := by
  have hs₁ : (recordUpdates () (⟨fun _ => none⟩ : VersionedData Unit MockValue Unit)
      [.write 0 0 ⟨some 5⟩ none,
        .delta 1 (DeltaOp.new (.positive 3) 10 ⟨3, 0, none, none⟩)]).isSome := by decide
  have hs₂ : (materializeDeltas () (Option.get _ hs₁) [1]).isSome := by decide +revert
  have hupdates : ∀ u ∈ ([.write 0 0 ⟨some 5⟩ none,
      .delta 1 (DeltaOp.new (.positive 3) 10 ⟨3, 0, none, none⟩)] : List (KeyUpdate MockValue Unit)),
      u.ForAggregator 10 := by
    intro u hu
    simp only [List.mem_cons, List.not_mem_nil, or_false] at hu
    rcases hu with rfl | rfl
    · exact ⟨rfl, some 5, rfl⟩
    · exact ⟨by decide, rfl⟩
  exact ⟨_, _, (Option.some_get hs₁).symm, (Option.some_get hs₂).symm,
    fetchDataNoRecord_sequentialOutcome () ⟨fun _ => none⟩ rfl _ hupdates
      (Option.some_get hs₁).symm [1] (Option.some_get hs₂).symm 2⟩

/-- Where reads leave the sequential reference: two well-formed deltas under limit 10 with no
write below, `+5` (achieved `+5`) then `+8` (achieved `+8`), read as a `DeltaApplicationFailure`
and not as unresolved, since their merge fails; two `+1` deltas under limits 10 and 20 on a
written 5 fail to merge although applying them one after another gives 7; and a write with a
layout below a delta makes the read panic where the deltas take its 5 to 8. -/
theorem fetchDataNoRecord_sequential_counterexample :
    (DeltaOp.new (.positive 5) 10 ⟨5, 0, none, none⟩).WellFormed ∧
      (DeltaOp.new (.positive 8) 10 ⟨8, 0, none, none⟩).WellFormed ∧
      ((recordUpdates () (⟨fun _ => none⟩ : VersionedData Unit MockValue Unit)
        [.delta 0 (DeltaOp.new (.positive 5) 10 ⟨5, 0, none, none⟩),
          .delta 1 (DeltaOp.new (.positive 8) 10 ⟨8, 0, none, none⟩)]).map
        fun d => d.fetchDataNoRecord () 2) = some (some (.error .deltaApplicationFailure)) ∧
    ((recordUpdates () (⟨fun _ => none⟩ : VersionedData Unit MockValue Unit)
        [.write 0 0 ⟨some 5⟩ none,
          .delta 1 (DeltaOp.new (.positive 1) 10 ⟨1, 0, none, none⟩),
          .delta 2 (DeltaOp.new (.positive 1) 20 ⟨1, 0, none, none⟩)]).map
        fun d => d.fetchDataNoRecord () 3) = some (some (.error .deltaApplicationFailure)) ∧
      applyDeltas [DeltaOp.new (.positive 1) 10 ⟨1, 0, none, none⟩,
        DeltaOp.new (.positive 1) 20 ⟨1, 0, none, none⟩] 5 = some 7 ∧
    ((recordUpdates () (⟨fun _ => none⟩ : VersionedData Unit MockValue Unit)
        [.write 0 0 ⟨some 5⟩ (some ()),
          .delta 1 (DeltaOp.new (.positive 3) 10 ⟨3, 0, none, none⟩)]).map
        fun d => d.fetchDataNoRecord () 2) = some none ∧
      applyDeltas [DeltaOp.new (.positive 3) 10 ⟨3, 0, none, none⟩] 5 = some 8 :=
  ⟨by decide, by decide, by rfl, by rfl, by rfl, by rfl, by rfl⟩

end VersionedData

end CreditChain
