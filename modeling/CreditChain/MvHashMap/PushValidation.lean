import CreditChain.MvHashMap.SequentialRead

/-!
# Push validation loses no invalidation

BlockSTMv2 records every read of a key at the write it reads (`fetch_data_and_record_dependency`),
and a later `write_v2` or `remove_v2` below the reader either carries the dependency over to the
new nearest write, when the value still validates, or returns it to be invalidated.

`PushState` pairs the key's versioned value with the value each outstanding dependency read, as
a ghost, and `pushStep` runs one operation on both.  `DepsSound` is what every run from an empty
key keeps: each stored dependency lies at the nearest write below its reader, whose value is the
one it read or validates against it (`Agrees`), unless the read was of a raw base value that
`set_base_value` since exchanged in place; and every outstanding dependency is stored.
-/

namespace CreditChain

namespace VersionedValue

variable {V L : Type} [TransactionWrite V]

/-! ### The nearest entry -/

section Nearest

variable {versionedMap : Nat → Option (Entry V L)}

omit [TransactionWrite V] in
/-- The entry `range(..=n).next_back()` finds is at or below `n`, with nothing between. -/
theorem lastAtOrBelow_eq_some {n k : Nat} {entry : Entry V L}
    (h : lastAtOrBelow versionedMap n = some (k, entry)) :
    k ≤ n ∧ versionedMap k = some entry ∧ ∀ k', k < k' → k' ≤ n → versionedMap k' = none := by
  induction n with
  | zero =>
    simp only [lastAtOrBelow_zero, Option.map_eq_some_iff, Prod.mk.injEq] at h
    obtain ⟨e, he, rfl, rfl⟩ := h
    exact ⟨le_refl 0, he, fun k' h1 h2 => by omega⟩
  | succ n ih =>
    cases hn : versionedMap (n + 1) with
    | some e =>
      rw [lastAtOrBelow_succ_of_some hn] at h
      obtain ⟨rfl, rfl⟩ := Prod.mk.inj (Option.some.inj h)
      exact ⟨le_refl _, hn, fun k' h1 h2 => by omega⟩
    | none =>
      rw [lastAtOrBelow_succ_of_none hn] at h
      obtain ⟨hk, he, hbetween⟩ := ih h
      refine ⟨by omega, he, fun k' h1 h2 => ?_⟩
      rcases Nat.lt_or_ge n k' with h3 | h3
      · have : k' = n + 1 := by omega
        subst this
        exact hn
      · exact hbetween k' h1 h3

omit [TransactionWrite V] in
/-- No entry at or below `n` when `range(..=n).next_back()` finds none. -/
theorem lastAtOrBelow_eq_none {n : Nat} (h : lastAtOrBelow versionedMap n = none) :
    ∀ k ≤ n, versionedMap k = none := by
  induction n with
  | zero =>
    intro k hk
    simp only [lastAtOrBelow_zero, Option.map_eq_none_iff] at h
    rwa [Nat.le_zero.1 hk]
  | succ n ih =>
    cases hn : versionedMap (n + 1) with
    | some e =>
      rw [lastAtOrBelow_succ_of_some hn] at h
      cases h
    | none =>
      rw [lastAtOrBelow_succ_of_none hn] at h
      intro k hk
      rcases Nat.lt_or_ge n k with h3 | h3
      · have : k = n + 1 := by omega
        subst this
        exact hn
      · exact ih h k h3

omit [TransactionWrite V] in
/-- An entry with nothing between it and `n` is what `range(..=n).next_back()` finds. -/
theorem lastAtOrBelow_of_nearest {n k : Nat} {entry : Entry V L} (hk : k ≤ n)
    (he : versionedMap k = some entry) (hbetween : ∀ k', k < k' → k' ≤ n → versionedMap k' = none) :
    lastAtOrBelow versionedMap n = some (k, entry) := by
  cases h : lastAtOrBelow versionedMap n with
  | none => rw [lastAtOrBelow_eq_none h k hk] at he; cases he
  | some found =>
    obtain ⟨k₂, e₂⟩ := found
    obtain ⟨hk₂, he₂, hbetween₂⟩ := lastAtOrBelow_eq_some h
    -- two entries with nothing between either and `n` are the same
    rcases Nat.lt_trichotomy k k₂ with hlt | rfl | hgt
    · rw [hbetween k₂ hlt hk₂] at he₂; cases he₂
    · rw [he] at he₂; cases he₂; rfl
    · rw [hbetween₂ k hgt hk] at he; cases he

/-- The entry at shifted index `k` is the nearest at or below `j`: the write a reader `j` reads. -/
def NearestBelow (versionedMap : Nat → Option (Entry V L)) (k j : Nat) : Prop :=
  k ≤ j ∧ ∀ k', k < k' → k' ≤ j → versionedMap k' = none

omit [TransactionWrite V] in
/-- Two present entries nearest at or below the same index are the same. -/
theorem NearestBelow.unique {k₁ k₂ j : Nat} (h₁ : NearestBelow versionedMap k₁ j)
    (h₂ : NearestBelow versionedMap k₂ j) (he₁ : versionedMap k₁ ≠ none)
    (he₂ : versionedMap k₂ ≠ none) : k₁ = k₂ := by
  rcases Nat.lt_trichotomy k₁ k₂ with hlt | heq | hgt
  · exact absurd (h₁.2 k₂ hlt h₂.1) he₂
  · exact heq
  · exact absurd (h₂.2 k₁ hgt h₁.1) he₁

omit [TransactionWrite V] in
/-- Replacing a present entry keeps which entries are nearest. -/
theorem NearestBelow.update_of_present {k x j : Nat} {e : Entry V L}
    (h : NearestBelow versionedMap k j) (hx : versionedMap x ≠ none) :
    NearestBelow (Function.update versionedMap x (some e)) k j := by
  refine ⟨h.1, fun k' h1 h2 => ?_⟩
  by_cases hk' : k' = x
  · subst hk'
    exact absurd (h.2 k' h1 h2) hx
  · rw [Function.update_of_ne hk']
    exact h.2 k' h1 h2

omit [TransactionWrite V] in
/-- A new entry keeps the nearest entries it does not come between. -/
theorem NearestBelow.update_of_not_between {k x j : Nat} {e : Option (Entry V L)}
    (h : NearestBelow versionedMap k j) (hx : ¬ (k < x ∧ x ≤ j)) :
    NearestBelow (Function.update versionedMap x e) k j := by
  refine ⟨h.1, fun k' h1 h2 => ?_⟩
  have hk' : k' ≠ x := fun hk' => hx ⟨hk' ▸ h1, hk' ▸ h2⟩
  rw [Function.update_of_ne hk']
  exact h.2 k' h1 h2

omit [TransactionWrite V] in
/-- Removing an entry keeps the nearest entries. -/
theorem NearestBelow.update_none {k x j : Nat} (h : NearestBelow versionedMap k j) :
    NearestBelow (Function.update versionedMap x none) k j := by
  refine ⟨h.1, fun k' h1 h2 => ?_⟩
  by_cases hk' : k' = x
  · subst hk'
    exact Function.update_self ..
  · rw [Function.update_of_ne hk']
    exact h.2 k' h1 h2

omit [TransactionWrite V] in
/-- A write nearest below an empty index `n` is nearest below whatever `n` was nearest below. -/
theorem NearestBelow.trans {k n j : Nat} (h₁ : NearestBelow versionedMap k n)
    (h₂ : NearestBelow versionedMap n j) (hn : versionedMap n = none) :
    NearestBelow versionedMap k j := by
  refine ⟨h₁.1.trans h₂.1, fun k' hk hj => ?_⟩
  rcases Nat.lt_trichotomy k' n with hlt | rfl | hgt
  · exact h₁.2 k' hk hlt.le
  · exact hn
  · exact h₂.2 k' hgt hj

omit [TransactionWrite V] in
/-- An index `n` whose nearest entry is `s` does not come between another present entry `k` and
an index `j` that `k` is nearest below. -/
theorem NearestBelow.not_between {k s n j : Nat} (hk : NearestBelow versionedMap k j)
    (hs : NearestBelow versionedMap s n) (hkp : versionedMap k ≠ none)
    (hsp : versionedMap s ≠ none) (hne : k ≠ s) : ¬ (k < n ∧ n ≤ j) := by
  rintro ⟨h1, h2⟩
  -- `k` is present and below `n`, so at or below `s`; then `s` lies between `k` and `j`
  have hks : k ≤ s := by
    by_contra hlt
    exact hkp (hs.2 k (by omega) h1.le)
  exact hsp (hk.2 s (by omega) (hs.1.trans h2))

end Nearest

/-! ### Validation of values -/

section Validation

variable [DecidableEq V] {flag : Bool} {a b c : V} {la lb lc : Option L}

/-- `compare_values_and_layouts` holds of equal metadata, or of equal values with no layout. -/
theorem compareValuesAndLayouts_iff :
    compareValuesAndLayouts flag a b la lb = true ↔
      if flag then TransactionWrite.asStateValueMetadata a = TransactionWrite.asStateValueMetadata b
      else la = none ∧ lb = none ∧ a = b := by
  cases flag <;> simp [compareValuesAndLayouts, and_assoc]

theorem compareValuesAndLayouts_symm (h : compareValuesAndLayouts flag a b la lb = true) :
    compareValuesAndLayouts flag b a lb la = true := by
  rw [compareValuesAndLayouts_iff] at h ⊢
  cases flag
  · obtain ⟨h1, h2, h3⟩ := h
    exact ⟨h2, h1, h3.symm⟩
  · exact h.symm

theorem compareValuesAndLayouts_trans (h₁ : compareValuesAndLayouts flag a b la lb = true)
    (h₂ : compareValuesAndLayouts flag b c lb lc = true) :
    compareValuesAndLayouts flag a c la lc = true := by
  rw [compareValuesAndLayouts_iff] at h₁ h₂ ⊢
  cases flag
  · obtain ⟨h1, -, h3⟩ := h₁
    obtain ⟨-, h5, h6⟩ := h₂
    exact ⟨h1, h5, h3.trans h6⟩
  · exact h₁.trans h₂

/-- The value held where a dependency is stored agrees with the value its reader read: it is the
same value, or one that validates against it, or the read was of a raw base value. -/
def Agrees (onlyCompareMetadata : Bool) (read held : ValueWithLayout V L) : Prop :=
  read = held ∨
    (∃ rv rl hv hl, read = .exchanged rv rl ∧ held = .exchanged hv hl ∧
      compareValuesAndLayouts onlyCompareMetadata rv hv rl hl = true) ∨
    ∃ x, read = .rawFromStorage x

/-- A dependency carried over to a value that validates against the one it was stored with still
agrees with its read. -/
theorem Agrees.validates {r : ValueWithLayout V L} (h : Agrees flag r (.exchanged a la))
    (hv : compareValuesAndLayouts flag a b la lb = true) : Agrees flag r (.exchanged b lb) := by
  rcases h with rfl | ⟨rv, rl, hv', hl', rfl, he, hc⟩ | hraw
  · exact .inr (.inl ⟨a, la, b, lb, rfl, rfl, hv⟩)
  · cases he
    exact .inr (.inl ⟨rv, rl, b, lb, rfl, rfl, compareValuesAndLayouts_trans hc hv⟩)
  · exact .inr (.inr hraw)

/-- What agrees with a raw base value was itself read raw, and so agrees with any value. -/
theorem Agrees.of_rawFromStorage {r held : ValueWithLayout V L} {x : V}
    (h : Agrees flag r (.rawFromStorage x)) : Agrees flag r held := by
  rcases h with rfl | ⟨rv, rl, hv, hl, -, he, -⟩ | hraw
  · exact .inr (.inr ⟨x, rfl⟩)
  · cases he
  · exact .inr (.inr hraw)

end Validation

/-! ### Where dependencies are stored -/

section Stored

variable {versionedMap : Nat → Option (Entry V L)}

/-- The dependency `dep` is stored on the write at shifted index `k`, which holds `held`. -/
def StoredAt (versionedMap : Nat → Option (Entry V L)) (dep : Nat × Nat) (k : Nat)
    (held : ValueWithLayout V L) : Prop :=
  ∃ entry incarnation dependencies, versionedMap k = some entry ∧
    entry.value = .resourceWrite incarnation held dependencies ∧ dep ∈ dependencies

omit [TransactionWrite V] in
theorem storedAt_iff {versionedMap : Nat → Option (Entry V L)} {dep : Nat × Nat} {k : Nat}
    {held : ValueWithLayout V L} :
    StoredAt versionedMap dep k held ↔ ∃ entry incarnation dependencies,
      versionedMap k = some entry ∧
        entry.value = .resourceWrite incarnation held dependencies ∧ dep ∈ dependencies := Iff.rfl

omit [TransactionWrite V] in
theorem StoredAt.present {dep : Nat × Nat} {k : Nat} {held : ValueWithLayout V L}
    (h : StoredAt versionedMap dep k held) : versionedMap k ≠ none := by
  obtain ⟨entry, -, -, he, -⟩ := h
  simp [he]

omit [TransactionWrite V] in
/-- Where a dependency is stored once a write is put at `x`. -/
theorem storedAt_update_write {x k : Nat} {incarnation : Nat} {v held : ValueWithLayout V L}
    {dependencies : Finset (Nat × Nat)} {flag : Bool} {dep : Nat × Nat} :
    StoredAt (Function.update versionedMap x (some ⟨.resourceWrite incarnation v dependencies, flag⟩))
        dep k held ↔
      (k = x ∧ held = v ∧ dep ∈ dependencies) ∨ (k ≠ x ∧ StoredAt versionedMap dep k held) := by
  by_cases hk : k = x
  · subst hk
    simp only [storedAt_iff, Function.update_self, Option.some.injEq, true_and, ne_eq,
      not_true_eq_false, false_and, or_false]
    constructor
    · rintro ⟨e, i, d, rfl, hv, hd⟩
      cases hv
      exact ⟨rfl, hd⟩
    · rintro ⟨rfl, hd⟩
      exact ⟨_, incarnation, dependencies, rfl, rfl, hd⟩
  · simp only [storedAt_iff, Function.update_of_ne hk, hk, false_and, false_or, ne_eq,
      not_false_eq_true, true_and]

omit [TransactionWrite V] in
/-- Where a dependency is stored once the entry at `x` is removed. -/
theorem storedAt_update_none {x k : Nat} {held : ValueWithLayout V L} {dep : Nat × Nat} :
    StoredAt (Function.update versionedMap x none) dep k held ↔
      k ≠ x ∧ StoredAt versionedMap dep k held := by
  by_cases hk : k = x
  · subst hk
    simp [storedAt_iff]
  · simp only [storedAt_iff, Function.update_of_ne hk, ne_eq, hk, not_false_eq_true, true_and]

omit [TransactionWrite V] in
/-- What is stored at a write, read off its entry. -/
theorem storedAt_of_eq {k incarnation : Nat} {entry : Entry V L} {v held : ValueWithLayout V L}
    {dependencies : Finset (Nat × Nat)} {dep : Nat × Nat} (he : versionedMap k = some entry)
    (hv : entry.value = .resourceWrite incarnation v dependencies) :
    StoredAt versionedMap dep k held ↔ held = v ∧ dep ∈ dependencies := by
  constructor
  · rintro ⟨e, i, d, he', hv', hd⟩
    rw [he] at he'
    cases he'
    rw [hv] at hv'
    cases hv'
    exact ⟨rfl, hd⟩
  · rintro ⟨rfl, hd⟩
    exact ⟨entry, incarnation, dependencies, he, hv, hd⟩

omit [TransactionWrite V] in
/-- A write that keeps its value and gains dependencies keeps every dependency stored. -/
theorem StoredAt.update_superset {x k incarnation : Nat} {entry : Entry V L}
    {v held : ValueWithLayout V L} {dependencies dependencies' : Finset (Nat × Nat)} {flag : Bool}
    {dep : Nat × Nat} (he : versionedMap x = some entry)
    (hv : entry.value = .resourceWrite incarnation v dependencies)
    (hsub : dependencies ⊆ dependencies') (h : StoredAt versionedMap dep k held) :
    StoredAt (Function.update versionedMap x
      (some ⟨.resourceWrite incarnation v dependencies', flag⟩)) dep k held := by
  rw [storedAt_update_write]
  by_cases hk : k = x
  · subst hk
    obtain ⟨rfl, hd⟩ := (storedAt_of_eq he hv).1 h
    exact .inl ⟨rfl, rfl, hsub hd⟩
  · exact .inr ⟨hk, h⟩

end Stored

/-! ### Reads of a key with writes only -/

/-- Every entry is a write, and none an estimate: a key with no deltas under BlockSTMv2. -/
def WritesOnly (versionedMap : Nat → Option (Entry V L)) : Prop :=
  ∀ k entry, versionedMap k = some entry →
    entry.flag = false ∧ ∃ incarnation v dependencies, entry.value = .resourceWrite incarnation v dependencies

section WritesOnly

variable {versionedMap : Nat → Option (Entry V L)}

omit [TransactionWrite V] in
theorem WritesOnly.update_write (hw : WritesOnly versionedMap) {x incarnation : Nat}
    {v : ValueWithLayout V L} {dependencies : Finset (Nat × Nat)} :
    WritesOnly (Function.update versionedMap x
      (some ⟨.resourceWrite incarnation v dependencies, false⟩)) := by
  intro k entry he
  by_cases hk : k = x
  · subst hk
    rw [Function.update_self, Option.some.injEq] at he
    subst he
    exact ⟨rfl, incarnation, v, dependencies, rfl⟩
  · rw [Function.update_of_ne hk] at he
    exact hw k entry he

omit [TransactionWrite V] in
theorem WritesOnly.update_none (hw : WritesOnly versionedMap) {x : Nat} :
    WritesOnly (Function.update versionedMap x none) := by
  intro k entry he
  by_cases hk : k = x
  · subst hk
    simp at he
  · rw [Function.update_of_ne hk] at he
    exact hw k entry he

/-- A read of a key with writes only resolves to the nearest write below the reader. -/
theorem readBelow_writesOnly {versionedMap : Nat → Option (Entry V L)}
    (hw : WritesOnly versionedMap) (n : Nat) :
    (lastAtOrBelow versionedMap n = none ∧
        readBelow versionedMap (n + 1) none = (some (.error .uninitialized), none)) ∨
      ∃ k entry incarnation v dependencies, lastAtOrBelow versionedMap n = some (k, entry) ∧
        entry.value = .resourceWrite incarnation v dependencies ∧
        readBelow versionedMap (n + 1) none = (some (.ok (.versioned (versionAt k incarnation) v)), some k) := by
  -- induction on the shifted index, one entry at a time, as the traversal goes
  induction n with
  | zero =>
    cases h0 : versionedMap 0 with
    | none => exact .inl ⟨by simp [lastAtOrBelow_zero, h0], by simp [readBelow, h0]⟩
    | some e =>
      obtain ⟨hflag, incarnation, v, dependencies, hv⟩ := hw 0 e h0
      exact .inr ⟨0, e, incarnation, v, dependencies, by simp [lastAtOrBelow_zero, h0], hv,
        by simp [readBelow, h0, hflag, hv]⟩
  | succ n ih =>
    cases h1 : versionedMap (n + 1) with
    | none =>
      have hl : lastAtOrBelow versionedMap (n + 1) = lastAtOrBelow versionedMap n :=
        lastAtOrBelow_succ_of_none h1
      have hr : readBelow versionedMap (n + 1 + 1) none = readBelow versionedMap (n + 1) none := by
        simp [readBelow, h1]
      rw [hl, hr]
      exact ih
    | some e =>
      obtain ⟨hflag, incarnation, v, dependencies, hv⟩ := hw (n + 1) e h1
      exact .inr ⟨n + 1, e, incarnation, v, dependencies, lastAtOrBelow_succ_of_some h1, hv,
        by simp [readBelow, h1, hflag, hv]⟩

/-- A recording read of a key with writes only: nothing below the reader, or the dependency
recorded at the nearest write, whose value it returns. -/
theorem read_writesOnly (self : VersionedValue V L) (hw : WritesOnly self.versionedMap)
    (readerTxnIdx readerIncarnation : Nat) :
    (lastAtOrBelow self.versionedMap readerTxnIdx = none ∧
        self.read readerTxnIdx (some readerIncarnation) = (some (.error .uninitialized), self)) ∨
      ∃ k entry incarnation v dependencies,
        lastAtOrBelow self.versionedMap readerTxnIdx = some (k, entry) ∧
        entry.value = .resourceWrite incarnation v dependencies ∧
        self.read readerTxnIdx (some readerIncarnation) =
          (some (.ok (.versioned (versionAt k incarnation) v)),
            ⟨Function.update self.versionedMap k (some ⟨.resourceWrite incarnation v
              (insert (readerTxnIdx, readerIncarnation) dependencies), false⟩)⟩) := by
  rcases readBelow_writesOnly hw readerTxnIdx with ⟨hl, hr⟩ | ⟨k, e, incarnation, v, deps, hl, hv, hr⟩
  · exact .inl ⟨hl, by simp [read, hr]⟩
  · have he := (lastAtOrBelow_eq_some hl).2.1
    have hflag := (hw k e he).1
    refine .inr ⟨k, e, incarnation, v, deps, hl, hv, ?_⟩
    simp [read, hr, he, recordDependency, hv, hflag]

end WritesOnly

/-! ### The operations on a key -/

section Operations

variable [DecidableEq V] {onlyCompareMetadata : Bool} {self self' : VersionedValue V L}

/-- `write_v2` on a key with writes only: with nothing at or below the writer, a write with no
dependencies; otherwise the nearest write below keeps the dependencies of readers at or below the
writer, and the affected ones move to the new write when they still validate (which needs an
exchanged value comparing equal to the new one), and are returned otherwise. -/
theorem writeV2_writesOnly (hw : WritesOnly self.versionedMap) {txnIdx incarnation : Nat} {data : V}
    {maybeLayout : Option L} {returned : Finset (Nat × Nat)}
    (h : self.writeV2 onlyCompareMetadata txnIdx incarnation data maybeLayout = some (returned, self')) :
    (lastAtOrBelow self.versionedMap (txnIdx + 1) = none ∧ returned = ∅ ∧
        self'.versionedMap = Function.update self.versionedMap (txnIdx + 1)
          (some ⟨.resourceWrite incarnation (.exchanged data maybeLayout) ∅, false⟩)) ∨
      ∃ s entry prevIncarnation prev dependencies, ∃ stillValid : Bool,
        lastAtOrBelow self.versionedMap (txnIdx + 1) = some (s, entry) ∧
        entry.value = .resourceWrite prevIncarnation prev dependencies ∧
        (stillValid = true → ∃ pv pl, prev = .exchanged pv pl ∧
          compareValuesAndLayouts onlyCompareMetadata pv data pl maybeLayout = true) ∧
        returned = (if stillValid then ∅ else dependencies.filter fun dep => txnIdx + 1 ≤ dep.1) ∧
        self'.versionedMap = Function.update (Function.update self.versionedMap s
            (some ⟨.resourceWrite prevIncarnation prev
              (dependencies.filter fun dep => dep.1 < txnIdx + 1), false⟩))
          (txnIdx + 1) (some ⟨.resourceWrite incarnation (.exchanged data maybeLayout)
            (if stillValid then dependencies.filter fun dep => txnIdx + 1 ≤ dep.1 else ∅), false⟩) := by
  unfold writeV2 splitOffAffectedReadDependencies at h
  cases hl : lastAtOrBelow self.versionedMap (txnIdx + 1) with
  | none =>
    simp only [hl, Option.map_eq_some_iff, Prod.mk.injEq] at h
    obtain ⟨self'', hwrite, rfl, rfl⟩ := h
    exact .inl ⟨rfl, rfl, by rw [writeImpl_eq_some hwrite]; rfl⟩
  | some found =>
    obtain ⟨s, entry⟩ := found
    obtain ⟨hflag, prevIncarnation, prev, dependencies, hv⟩ :=
      hw s entry (lastAtOrBelow_eq_some hl).2.1
    simp only [hl, hv, hflag, Option.map_eq_some_iff, Prod.mk.injEq, apply_ite Prod.fst,
      apply_ite Prod.snd] at h
    obtain ⟨self'', hwrite, hret, rfl⟩ := h
    refine .inr ⟨s, entry, prevIncarnation, prev, dependencies, _, rfl, hv, ?_, hret.symm, ?_⟩
    · intro hvalid
      cases prev with
      | rawFromStorage x => simp at hvalid
      | exchanged pv pl => exact ⟨pv, pl, rfl, by simp at hvalid; exact hvalid.2⟩
    · rw [writeImpl_eq_some hwrite]
      rfl

/-- `handle_removed_dependencies`: the dependencies are returned, or they move to the next write
below, whose exchanged value compares equal to the removed one. -/
theorem handleRemovedDependencies_eq_some {txnIdx : Nat} {dependencies returned : Finset (Nat × Nat)}
    {removedData : V} {removedMaybeLayout : Option L}
    (h : self.handleRemovedDependencies onlyCompareMetadata txnIdx dependencies removedData
      removedMaybeLayout = some (returned, self')) :
    (returned = dependencies ∧ self' = self) ∨
      ∃ s next nextIncarnation entryValue entryMaybeLayout nextDeps,
        lastAtOrBelow self.versionedMap (txnIdx + 1) = some (s, next) ∧
        next.value = .resourceWrite nextIncarnation (.exchanged entryValue entryMaybeLayout) nextDeps ∧
        compareValuesAndLayouts onlyCompareMetadata entryValue removedData entryMaybeLayout
          removedMaybeLayout = true ∧
        returned = ∅ ∧
        self'.versionedMap = Function.update self.versionedMap s (some ⟨.resourceWrite nextIncarnation
          (.exchanged entryValue entryMaybeLayout) (nextDeps ∪ dependencies), next.flag⟩) := by
  unfold handleRemovedDependencies at h
  split_ifs at h with hne
  · cases hl : lastAtOrBelow self.versionedMap (txnIdx + 1) with
    | none =>
      simp only [hl, Option.some.injEq, Prod.mk.injEq] at h
      exact .inl ⟨h.1.symm, h.2.symm⟩
    | some found =>
      obtain ⟨s, next⟩ := found
      simp only [hl] at h
      split_ifs at h with hs
      split at h
      · rename_i nextIncarnation entryValue entryMaybeLayout nextDeps hnext
        split_ifs at h with hc
        · simp only [Option.some.injEq, Prod.mk.injEq] at h
          obtain ⟨rfl, rfl⟩ := h
          exact .inr ⟨s, next, nextIncarnation, entryValue, entryMaybeLayout, nextDeps, rfl, hnext, hc,
            rfl, rfl⟩
        · simp only [Option.some.injEq, Prod.mk.injEq] at h
          exact .inl ⟨h.1.symm, h.2.symm⟩
      · simp only [Option.some.injEq, Prod.mk.injEq] at h
        exact .inl ⟨h.1.symm, h.2.symm⟩
  · simp only [Option.some.injEq, Prod.mk.injEq] at h
    exact .inl ⟨h.1.symm, h.2.symm⟩

/-- `remove_v2` on a key with writes only: a missing entry is an error that changes nothing;
otherwise the removed write was exchanged, and its dependencies are returned or move to the next
write below. -/
theorem removeV2_writesOnly (hw : WritesOnly self.versionedMap) {txnIdx : Nat}
    {result : Except PanicError (Finset (Nat × Nat))}
    (h : self.removeV2 onlyCompareMetadata txnIdx = some (result, self')) :
    (self' = self ∧ ∀ returned, result ≠ .ok returned) ∨
      ∃ entry incarnation data maybeLayout dependencies,
        self.versionedMap (txnIdx + 1) = some entry ∧
        entry.value = .resourceWrite incarnation (.exchanged data maybeLayout) dependencies ∧
        ((result = .ok dependencies ∧
            self'.versionedMap = Function.update self.versionedMap (txnIdx + 1) none) ∨
          ∃ s next nextIncarnation entryValue entryMaybeLayout nextDeps,
            lastAtOrBelow (Function.update self.versionedMap (txnIdx + 1) none) (txnIdx + 1) =
              some (s, next) ∧
            next.value = .resourceWrite nextIncarnation (.exchanged entryValue entryMaybeLayout) nextDeps ∧
            compareValuesAndLayouts onlyCompareMetadata entryValue data entryMaybeLayout maybeLayout = true ∧
            result = .ok ∅ ∧
            self'.versionedMap = Function.update (Function.update self.versionedMap (txnIdx + 1) none) s
              (some ⟨.resourceWrite nextIncarnation (.exchanged entryValue entryMaybeLayout)
                (nextDeps ∪ dependencies), false⟩)) := by
  unfold removeV2 at h
  cases he : self.versionedMap (txnIdx + 1) with
  | none =>
    simp only [he, Option.some.injEq, Prod.mk.injEq] at h
    obtain ⟨rfl, rfl⟩ := h
    exact .inl ⟨rfl, fun _ => by simp⟩
  | some entry =>
    obtain ⟨-, incarnation, v, dependencies, hv⟩ := hw _ entry he
    simp only [he, hv] at h
    cases v with
    | rawFromStorage x => cases h
    | exchanged data maybeLayout =>
      refine .inr ⟨entry, incarnation, data, maybeLayout, dependencies, rfl, hv, ?_⟩
      simp only [Option.map_eq_some_iff, Prod.mk.injEq] at h
      obtain ⟨⟨returned, removed⟩, hhandle, rfl, rfl⟩ := h
      rcases handleRemovedDependencies_eq_some hhandle with ⟨rfl, rfl⟩ |
        ⟨s, next, nextIncarnation, entryValue, entryMaybeLayout, nextDeps, hl, hnext, hc, rfl, hmap⟩
      · exact .inl ⟨rfl, rfl⟩
      · have hflag := (hw.update_none s next (lastAtOrBelow_eq_some hl).2.1).1
        exact .inr ⟨s, next, nextIncarnation, entryValue, entryMaybeLayout, nextDeps, hl, hnext, hc,
          rfl, by rw [hmap, hflag]⟩

omit [DecidableEq V] in
/-- `set_base_value` on a key with writes only: nothing changes, or a vacant base takes the value
with no dependencies, or a raw base value is replaced keeping its dependencies. -/
theorem setBaseValue_writesOnly (hw : WritesOnly self.versionedMap)
    {baseValueWithLayout : ValueWithLayout V L} (h : self.setBaseValue baseValueWithLayout = some self') :
    self' = self ∨
      (self.versionedMap 0 = none ∧ self'.versionedMap = Function.update self.versionedMap 0
        (some ⟨.resourceWrite 0 baseValueWithLayout ∅, false⟩)) ∨
      ∃ entry x dependencies, self.versionedMap 0 = some entry ∧
        entry.value = .resourceWrite 0 (.rawFromStorage x) dependencies ∧
        self'.versionedMap = Function.update self.versionedMap 0
          (some ⟨.resourceWrite 0 baseValueWithLayout dependencies, false⟩) := by
  unfold setBaseValue at h
  cases he : self.versionedMap 0 with
  | none =>
    simp only [he, Option.some.injEq] at h
    exact .inr (.inl ⟨rfl, by rw [← h]; rfl⟩)
  | some entry =>
    obtain ⟨-, incarnation, v, dependencies, hv⟩ := hw 0 entry he
    simp only [he, hv] at h
    split_ifs at h with hinc
    have hinc : incarnation = 0 := not_not.1 hinc
    subst hinc
    -- only a raw base value upgraded to an exchanged one changes the entry
    cases v with
    | rawFromStorage x =>
      cases baseValueWithLayout with
      | rawFromStorage y =>
        dsimp only at h
        split_ifs at h
        exact .inl (Option.some.inj h).symm
      | exchanged y layout =>
        exact .inr (.inr ⟨entry, x, dependencies, rfl, hv, by rw [← Option.some.inj h]; rfl⟩)
    | exchanged x layout =>
      cases baseValueWithLayout with
      | rawFromStorage y => exact .inl (Option.some.inj h).symm
      | exchanged y layout' =>
        dsimp only at h
        split_ifs at h
        exact .inl (Option.some.inj h).symm

end Operations

/-! ### Runs on one key -/

/-- The BlockSTMv2 operations on one key with no deltas. -/
inductive PushOp (V L : Type)
  | setBaseValue (baseValueWithLayout : ValueWithLayout V L)
  | fetchDataAndRecordDependency (txnIdx incarnation : Nat)
  | writeV2 (txnIdx incarnation : Nat) (data : V) (maybeLayout : Option L)
  | removeV2 (txnIdx : Nat)

section Runs

variable [DecidableEq V] {onlyCompareMetadata : Bool} {self self' : VersionedValue V L}

/-- One operation: the value after it and the dependencies it returns to be invalidated; `none`
where the code panics or returns its `PanicError`. -/
def pushStep (onlyCompareMetadata : Bool) (self : VersionedValue V L) :
    PushOp V L → Option (VersionedValue V L × Finset (Nat × Nat))
  | .setBaseValue baseValueWithLayout =>
    (self.setBaseValue baseValueWithLayout).map fun self => (self, ∅)
  | .fetchDataAndRecordDependency txnIdx incarnation =>
    let (result, self) := self.read txnIdx (some incarnation)
    result.map fun _ => (self, ∅)
  | .writeV2 txnIdx incarnation data maybeLayout =>
    (self.writeV2 onlyCompareMetadata txnIdx incarnation data maybeLayout).map
      fun (returned, self) => (self, returned)
  | .removeV2 txnIdx =>
    (self.removeV2 onlyCompareMetadata txnIdx).bind fun (result, self) =>
      result.toOption.map fun returned => (self, returned)

/-- A run of operations: the value after it and every dependency it returned. -/
def pushRun (onlyCompareMetadata : Bool) (self : VersionedValue V L) :
    List (PushOp V L) → Option (VersionedValue V L × Finset (Nat × Nat))
  | [] => some (self, ∅)
  | op :: ops => do
    let (self, returned) ← self.pushStep onlyCompareMetadata op
    let (self, later) ← self.pushRun onlyCompareMetadata ops
    pure (self, returned ∪ later)

/-- The ghost once the dependencies `returned` go back to be invalidated: their reads are no
longer outstanding. -/
def forget (reads : Nat × Nat → List (ValueWithLayout V L)) (returned : Finset (Nat × Nat)) :
    Nat × Nat → List (ValueWithLayout V L) :=
  fun dep => if dep ∈ returned then [] else reads dep

omit [TransactionWrite V] [DecidableEq V] in
@[simp] theorem mem_forget {reads : Nat × Nat → List (ValueWithLayout V L)}
    {returned : Finset (Nat × Nat)} {dep : Nat × Nat} {r : ValueWithLayout V L} :
    r ∈ forget reads returned dep ↔ dep ∉ returned ∧ r ∈ reads dep := by
  unfold forget
  split_ifs with h <;> simp [h]

omit [TransactionWrite V] [DecidableEq V] in
/-- An outstanding read stays outstanding unless its dependency is returned. -/
theorem mem_forget_or {reads : Nat × Nat → List (ValueWithLayout V L)}
    {returned : Finset (Nat × Nat)} {dep : Nat × Nat} {r : ValueWithLayout V L} (hr : r ∈ reads dep) :
    r ∈ forget reads returned dep ∨ dep ∈ returned := by
  by_cases hdep : dep ∈ returned
  · exact .inr hdep
  · exact .inl (Iff.mpr mem_forget ⟨hdep, hr⟩)

/-- What every run keeps, given as a ghost `reads` the values that the outstanding reads of each
dependency returned: every entry is a write; a dependency is stored at the nearest write below
its reader, whose value agrees with what it read; and every outstanding dependency is stored. -/
structure DepsSound (onlyCompareMetadata : Bool) (value : VersionedValue V L)
    (reads : Nat × Nat → List (ValueWithLayout V L)) : Prop where
  writesOnly : WritesOnly value.versionedMap
  nearest : ∀ dep k held, StoredAt value.versionedMap dep k held →
    NearestBelow value.versionedMap k dep.1
  agrees : ∀ dep k held, StoredAt value.versionedMap dep k held →
    ∀ r ∈ reads dep, Agrees onlyCompareMetadata r held
  stored : ∀ dep, ∀ r ∈ reads dep, ∃ k held, StoredAt value.versionedMap dep k held

variable {reads : Nat × Nat → List (ValueWithLayout V L)}

/-- A key nothing was written to. -/
theorem depsSound_empty :
    DepsSound onlyCompareMetadata (⟨fun _ => none⟩ : VersionedValue V L) fun _ => [] where
  writesOnly _ _ he := by cases he
  nearest _ _ _ h := absurd rfl h.present
  agrees _ _ _ h := absurd rfl h.present
  stored _ _ hr := by cases hr

/-- Fewer outstanding reads keep the invariant. -/
theorem DepsSound.mono {reads' : Nat × Nat → List (ValueWithLayout V L)}
    (hs : DepsSound onlyCompareMetadata self reads')
    (hsub : ∀ dep, ∀ r ∈ reads dep, r ∈ reads' dep) : DepsSound onlyCompareMetadata self reads :=
  ⟨hs.writesOnly, hs.nearest, fun dep k held hst r hr => hs.agrees dep k held hst r (hsub dep r hr),
    fun dep r hr => hs.stored dep r (hsub dep r hr)⟩

/-- A dependency is stored at one write only. -/
theorem DepsSound.storedAt_unique (hs : DepsSound onlyCompareMetadata self reads)
    {dep : Nat × Nat} {k k' : Nat} {held held' : ValueWithLayout V L}
    (h : StoredAt self.versionedMap dep k held) (h' : StoredAt self.versionedMap dep k' held') :
    k' = k ∧ held' = held := by
  have hk : k' = k := (hs.nearest dep k' held' h').unique (hs.nearest dep k held h) h'.present h.present
  subst hk
  obtain ⟨entry, incarnation, dependencies, he, hv, -⟩ := h
  exact ⟨rfl, ((storedAt_of_eq he hv).1 h').1⟩

/-- A recording read keeps the invariant, with what it read now outstanding. -/
theorem DepsSound.fetch (hs : DepsSound onlyCompareMetadata self reads)
    {readerTxnIdx readerIncarnation : Nat} {version : Version} {v : ValueWithLayout V L}
    (h : self.read readerTxnIdx (some readerIncarnation) = (some (.ok (.versioned version v)), self')) :
    DepsSound onlyCompareMetadata self' (Function.update reads (readerTxnIdx, readerIncarnation)
      (v :: reads (readerTxnIdx, readerIncarnation))) := by
  rcases read_writesOnly self hs.writesOnly readerTxnIdx readerIncarnation with
    ⟨-, hread⟩ | ⟨k, entry, incarnation, w, deps, hl, hv, hread⟩
  · rw [hread] at h
    simp at h
  rw [hread] at h
  simp only [Prod.mk.injEq, Option.some.injEq, Except.ok.injEq, MVDataOutput.versioned.injEq] at h
  obtain ⟨⟨-, rfl⟩, rfl⟩ := h
  obtain ⟨hk, he, hbetween⟩ := lastAtOrBelow_eq_some hl
  have hnear : NearestBelow self.versionedMap k readerTxnIdx := ⟨hk, hbetween⟩
  have hpresent : self.versionedMap k ≠ none := by simp [he]
  -- the reader's dependency, if already stored, is at the same write
  have hat : ∀ k' held, StoredAt self.versionedMap (readerTxnIdx, readerIncarnation) k' held →
      k' = k := fun k' held hst => (hs.nearest _ _ _ hst).unique hnear hst.present hpresent
  refine ⟨hs.writesOnly.update_write, ?_, ?_, ?_⟩
  · intro dep k' held hst
    rw [storedAt_update_write] at hst
    rcases hst with ⟨rfl, -, hd⟩ | ⟨-, hst⟩
    · rcases Finset.mem_insert.1 hd with rfl | hd
      · exact hnear.update_of_present hpresent
      · exact (hs.nearest dep k' w ((storedAt_of_eq he hv).2 ⟨rfl, hd⟩)).update_of_present hpresent
    · exact (hs.nearest dep k' held hst).update_of_present hpresent
  · intro dep k' held hst r hr
    by_cases hdep : dep = (readerTxnIdx, readerIncarnation)
    · subst hdep
      rw [Function.update_self] at hr
      have hheld : held = w := by
        rw [storedAt_update_write] at hst
        rcases hst with ⟨-, hheld, -⟩ | ⟨hne, hst⟩
        · exact hheld
        · exact absurd (hat k' held hst) hne
      subst hheld
      rcases List.mem_cons.1 hr with rfl | hearlier
      · exact .inl rfl
      · -- an earlier read of the same dependency was stored at the same write
        obtain ⟨k₀, held₀, hst₀⟩ := hs.stored _ r hearlier
        obtain rfl := hat k₀ held₀ hst₀
        obtain ⟨rfl, -⟩ := (storedAt_of_eq he hv).1 hst₀
        exact hs.agrees _ _ _ hst₀ r hearlier
    · rw [Function.update_of_ne hdep] at hr
      rw [storedAt_update_write] at hst
      rcases hst with ⟨rfl, rfl, hd⟩ | ⟨-, hst⟩
      · have hd : dep ∈ deps := (Finset.mem_insert.1 hd).resolve_left hdep
        exact hs.agrees dep _ _ ((storedAt_of_eq he hv).2 ⟨rfl, hd⟩) r hr
      · exact hs.agrees dep k' held hst r hr
  · intro dep r hr
    by_cases hdep : dep = (readerTxnIdx, readerIncarnation)
    · subst hdep
      exact ⟨k, w, Iff.mpr storedAt_update_write (.inl ⟨rfl, rfl, Finset.mem_insert_self _ _⟩)⟩
    · rw [Function.update_of_ne hdep] at hr
      obtain ⟨k₀, held₀, hst₀⟩ := hs.stored dep r hr
      exact ⟨k₀, held₀, hst₀.update_superset he hv (Finset.subset_insert _ _)⟩

/-- A write with no dependencies where nothing lies at or below keeps the invariant: it comes
between no stored dependency and its reader. -/
theorem DepsSound.update_vacant (hs : DepsSound onlyCompareMetadata self reads) {x incarnation : Nat}
    {v : ValueWithLayout V L} (hnone : ∀ k ≤ x, self.versionedMap k = none)
    (hmap : self'.versionedMap = Function.update self.versionedMap x
      (some ⟨.resourceWrite incarnation v ∅, false⟩)) :
    DepsSound onlyCompareMetadata self' reads := by
  have hstored : ∀ dep k held, StoredAt self'.versionedMap dep k held →
      StoredAt self.versionedMap dep k held := by
    intro dep k held hst
    rw [hmap, storedAt_update_write] at hst
    rcases hst with ⟨-, -, hd⟩ | ⟨-, hst⟩
    · cases hd
    · exact hst
  refine ⟨hmap ▸ hs.writesOnly.update_write, fun dep k held hst => ?_,
    fun dep k held hst => hs.agrees dep k held (hstored dep k held hst), fun dep r hr => ?_⟩
  · have hst := hstored dep k held hst
    rw [hmap]
    refine (hs.nearest dep k held hst).update_of_not_between fun hkx => ?_
    exact hst.present (hnone k hkx.1.le)
  · obtain ⟨k, held, hst⟩ := hs.stored dep r hr
    have hkx : k ≠ x := fun hkx => hst.present (hnone k hkx.le)
    exact ⟨k, held, by rw [hmap, storedAt_update_write]; exact .inr ⟨hkx, hst⟩⟩

/-- `write_v2` keeps the invariant once the dependencies it returns are forgotten. -/
theorem DepsSound.writeV2 (hs : DepsSound onlyCompareMetadata self reads)
    {txnIdx incarnation : Nat} {data : V} {maybeLayout : Option L} {returned : Finset (Nat × Nat)}
    (h : self.writeV2 onlyCompareMetadata txnIdx incarnation data maybeLayout = some (returned, self')) :
    DepsSound onlyCompareMetadata self' (forget reads returned) := by
  rcases writeV2_writesOnly hs.writesOnly h with ⟨hl, rfl, hmap⟩ |
    ⟨s, entry, prevIncarnation, prev, deps, stillValid, hl, hv, hvalid, rfl, hmap⟩
  · exact (hs.update_vacant (lastAtOrBelow_eq_none hl) hmap).mono fun dep r hr => (Iff.mp mem_forget hr).2
  obtain ⟨hs_le, he, hbetween⟩ := lastAtOrBelow_eq_some hl
  have hsnear : NearestBelow self.versionedMap s (txnIdx + 1) := ⟨hs_le, hbetween⟩
  have hspresent : self.versionedMap s ≠ none := by simp [he]
  -- the three places a dependency can be after the write: on the new write, kept on the write
  -- below, or where it was
  have hcases : ∀ dep k held, StoredAt self'.versionedMap dep k held →
      (k = txnIdx + 1 ∧ held = .exchanged data maybeLayout ∧ stillValid = true ∧ dep ∈ deps ∧
          txnIdx + 1 ≤ dep.1) ∨
        (k = s ∧ k ≠ txnIdx + 1 ∧ held = prev ∧ dep ∈ deps ∧ dep.1 < txnIdx + 1) ∨
        (k ≠ s ∧ k ≠ txnIdx + 1 ∧ StoredAt self.versionedMap dep k held) := by
    intro dep k held hst
    rw [hmap, storedAt_update_write, storedAt_update_write] at hst
    rcases hst with ⟨rfl, rfl, hd⟩ | ⟨hne, ⟨rfl, rfl, hd⟩ | ⟨hne', hst⟩⟩
    · cases stillValid
      · cases hd
      · exact .inl ⟨rfl, rfl, rfl, Finset.mem_filter.1 hd⟩
    · exact .inr (.inl ⟨rfl, hne, rfl, Finset.mem_filter.1 hd⟩)
    · exact .inr (.inr ⟨hne', hne, hst⟩)
  refine ⟨hmap ▸ hs.writesOnly.update_write.update_write, fun dep k held hst => ?_,
    fun dep k held hst r hr => ?_, fun dep r hr => ?_⟩
  · rw [hmap]
    rcases hcases dep k held hst with ⟨rfl, -, -, hd, hle⟩ | ⟨rfl, -, -, hd, hlt⟩ | ⟨hne, -, hst⟩
    · -- moved up: nothing lies between the writer and the reader, as nothing did above `s`
      have hold := hs.nearest dep s prev ((storedAt_of_eq he hv).2 ⟨rfl, hd⟩)
      refine ⟨hle, fun k' h1 h2 => ?_⟩
      rw [Function.update_of_ne (by omega), Function.update_of_ne (by omega)]
      exact hold.2 k' (by omega) h2
    · have hold := hs.nearest dep k prev ((storedAt_of_eq he hv).2 ⟨rfl, hd⟩)
      exact (hold.update_of_present hspresent).update_of_not_between (by omega)
    · have hold := hs.nearest dep k held hst
      exact (hold.update_of_present hspresent).update_of_not_between
        (hold.not_between hsnear hst.present hspresent hne)
  · have hr := (Iff.mp mem_forget hr).2
    rcases hcases dep k held hst with ⟨rfl, rfl, hvt, hd, -⟩ | ⟨rfl, -, rfl, hd, -⟩ | ⟨-, -, hst⟩
    · -- the affected readers validated against the new value
      obtain ⟨pv, pl, rfl, hc⟩ := hvalid hvt
      exact (hs.agrees dep s _ ((storedAt_of_eq he hv).2 ⟨rfl, hd⟩) r hr).validates hc
    · exact hs.agrees dep k _ ((storedAt_of_eq he hv).2 ⟨rfl, hd⟩) r hr
    · exact hs.agrees dep k held hst r hr
  · obtain ⟨hnot, hr⟩ := Iff.mp mem_forget hr
    obtain ⟨k, held, hst⟩ := hs.stored dep r hr
    rw [hmap]
    by_cases hks : k = s
    · subst hks
      obtain ⟨rfl, hd⟩ := (storedAt_of_eq he hv).1 hst
      by_cases hlt : dep.1 < txnIdx + 1
      · have hk : k ≠ txnIdx + 1 := by
          have := (hs.nearest dep k held hst).1
          omega
        exact ⟨k, held, Iff.mpr storedAt_update_write (.inr ⟨hk, Iff.mpr storedAt_update_write
          (.inl ⟨rfl, rfl, Finset.mem_filter.2 ⟨hd, hlt⟩⟩)⟩)⟩
      · -- an affected reader not returned moved to the new write
        cases stillValid
        · exact absurd (Finset.mem_filter.2 ⟨hd, by omega⟩) hnot
        · exact ⟨txnIdx + 1, _, Iff.mpr storedAt_update_write
            (.inl ⟨rfl, rfl, Finset.mem_filter.2 ⟨hd, by omega⟩⟩)⟩
    · have hk : k ≠ txnIdx + 1 := by
        rintro rfl
        rcases Nat.lt_or_ge s (txnIdx + 1) with hlt | hge
        · exact hst.present (hbetween _ hlt le_rfl)
        · exact hks (by omega)
      exact ⟨k, held, Iff.mpr storedAt_update_write (.inr ⟨hk, Iff.mpr storedAt_update_write (.inr ⟨hks, hst⟩)⟩)⟩

/-- `remove_v2` keeps the invariant once the dependencies it returns are forgotten. -/
theorem DepsSound.removeV2 (hs : DepsSound onlyCompareMetadata self reads) {txnIdx : Nat}
    {returned : Finset (Nat × Nat)}
    (h : self.removeV2 onlyCompareMetadata txnIdx = some (.ok returned, self')) :
    DepsSound onlyCompareMetadata self' (forget reads returned) := by
  rcases removeV2_writesOnly hs.writesOnly h with ⟨-, hne⟩ |
    ⟨entry, incarnation, data, maybeLayout, deps, he, hv, ⟨hres, hmap⟩ |
      ⟨s, next, nextIncarnation, entryValue, entryMaybeLayout, nextDeps, hl, hnext, hc, hres, hmap⟩⟩
  · exact absurd rfl (hne returned)
  · -- the removed write's dependencies are all returned
    cases hres
    refine ⟨hmap ▸ hs.writesOnly.update_none, fun dep k held hst => ?_,
      fun dep k held hst r hr => ?_, fun dep r hr => ?_⟩
    · rw [hmap, storedAt_update_none] at hst
      rw [hmap]
      exact (hs.nearest dep k held hst.2).update_none
    · rw [hmap, storedAt_update_none] at hst
      exact hs.agrees dep k held hst.2 r (Iff.mp mem_forget hr).2
    · obtain ⟨hnot, hr⟩ := Iff.mp mem_forget hr
      obtain ⟨k, held, hst⟩ := hs.stored dep r hr
      have hk : k ≠ txnIdx + 1 := by
        rintro rfl
        exact hnot ((storedAt_of_eq he hv).1 hst).2
      exact ⟨k, held, by rw [hmap, storedAt_update_none]; exact ⟨hk, hst⟩⟩
  · -- the removed write's dependencies move to the next write below, whose value validates
    cases hres
    obtain ⟨hs_le, hsnext, hbetween⟩ := lastAtOrBelow_eq_some hl
    have hs_ne : s ≠ txnIdx + 1 := by
      rintro rfl
      simp at hsnext
    have hsm : self.versionedMap s = some next := by rwa [Function.update_of_ne hs_ne] at hsnext
    have hsnear : NearestBelow (Function.update self.versionedMap (txnIdx + 1) none) s (txnIdx + 1) :=
      ⟨hs_le, hbetween⟩
    have hspresent : Function.update self.versionedMap (txnIdx + 1) none s ≠ none := by simp [hsnext]
    have hcases : ∀ dep k held, StoredAt self'.versionedMap dep k held →
        (k = s ∧ held = .exchanged entryValue entryMaybeLayout ∧ (dep ∈ nextDeps ∨ dep ∈ deps)) ∨
          (k ≠ s ∧ k ≠ txnIdx + 1 ∧ StoredAt self.versionedMap dep k held) := by
      intro dep k held hst
      rw [hmap, storedAt_update_write, storedAt_update_none] at hst
      rcases hst with ⟨rfl, rfl, hd⟩ | ⟨hne, hne', hst⟩
      · exact .inl ⟨rfl, rfl, Finset.mem_union.1 hd⟩
      · exact .inr ⟨hne, hne', hst⟩
    refine (?_ : DepsSound onlyCompareMetadata self' reads).mono fun dep r hr => (Iff.mp mem_forget hr).2
    refine ⟨hmap ▸ hs.writesOnly.update_none.update_write, fun dep k held hst => ?_,
      fun dep k held hst r hr => ?_, fun dep r hr => ?_⟩
    · rw [hmap]
      rcases hcases dep k held hst with ⟨rfl, -, hd | hd⟩ | ⟨-, -, hst⟩
      · exact (hs.nearest dep k _ ((storedAt_of_eq hsm hnext).2 ⟨rfl, hd⟩)).update_none.update_of_present
          hspresent
      · -- the reader's nearest write was the removed one, whose nearest write below is `s`
        have hold := hs.nearest dep _ _ ((storedAt_of_eq he hv).2 ⟨rfl, hd⟩)
        exact (hsnear.trans hold.update_none (Function.update_self ..)).update_of_present hspresent
      · exact (hs.nearest dep k held hst).update_none.update_of_present hspresent
    · rcases hcases dep k held hst with ⟨rfl, rfl, hd | hd⟩ | ⟨-, -, hst⟩
      · exact hs.agrees dep k _ ((storedAt_of_eq hsm hnext).2 ⟨rfl, hd⟩) r hr
      · exact (hs.agrees dep _ _ ((storedAt_of_eq he hv).2 ⟨rfl, hd⟩) r hr).validates
          (compareValuesAndLayouts_symm hc)
      · exact hs.agrees dep k held hst r hr
    · obtain ⟨k, held, hst⟩ := hs.stored dep r hr
      rw [hmap]
      by_cases hk : k = txnIdx + 1
      · subst hk
        obtain ⟨-, hd⟩ := (storedAt_of_eq he hv).1 hst
        exact ⟨s, _, Iff.mpr storedAt_update_write (.inl ⟨rfl, rfl, Finset.mem_union_right _ hd⟩)⟩
      · by_cases hks : k = s
        · subst hks
          obtain ⟨-, hd⟩ := (storedAt_of_eq hsm hnext).1 hst
          exact ⟨k, _, Iff.mpr storedAt_update_write (.inl ⟨rfl, rfl, Finset.mem_union_left _ hd⟩)⟩
        · exact ⟨k, held, Iff.mpr storedAt_update_write (.inr ⟨hks, Iff.mpr storedAt_update_none ⟨hk, hst⟩⟩)⟩

/-- `set_base_value` keeps the invariant: the dependencies an upgraded raw base value carries over
were reads of a raw value. -/
theorem DepsSound.setBaseValue (hs : DepsSound onlyCompareMetadata self reads)
    {baseValueWithLayout : ValueWithLayout V L} (h : self.setBaseValue baseValueWithLayout = some self') :
    DepsSound onlyCompareMetadata self' reads := by
  rcases setBaseValue_writesOnly hs.writesOnly h with rfl | ⟨hnone, hmap⟩ |
    ⟨entry, x, deps, he, hv, hmap⟩
  · exact hs
  · exact hs.update_vacant (fun k hk => Nat.le_zero.1 hk ▸ hnone) hmap
  have hpresent : self.versionedMap 0 ≠ none := by simp [he]
  have hcases : ∀ dep k held, StoredAt self'.versionedMap dep k held →
      (k = 0 ∧ dep ∈ deps) ∨ (k ≠ 0 ∧ StoredAt self.versionedMap dep k held) := by
    intro dep k held hst
    rw [hmap, storedAt_update_write] at hst
    rcases hst with ⟨rfl, -, hd⟩ | hst
    · exact .inl ⟨rfl, hd⟩
    · exact .inr hst
  refine ⟨hmap ▸ hs.writesOnly.update_write, fun dep k held hst => ?_,
    fun dep k held hst r hr => ?_, fun dep r hr => ?_⟩
  · rw [hmap]
    rcases hcases dep k held hst with ⟨rfl, hd⟩ | ⟨-, hst⟩
    · exact (hs.nearest dep 0 _ ((storedAt_of_eq he hv).2 ⟨rfl, hd⟩)).update_of_present hpresent
    · exact (hs.nearest dep k held hst).update_of_present hpresent
  · rcases hcases dep k held hst with ⟨rfl, hd⟩ | ⟨-, hst⟩
    · exact (hs.agrees dep 0 _ ((storedAt_of_eq he hv).2 ⟨rfl, hd⟩) r hr).of_rawFromStorage
    · exact hs.agrees dep k held hst r hr
  · obtain ⟨k, held, hst⟩ := hs.stored dep r hr
    rw [hmap]
    by_cases hk : k = 0
    · subst hk
      obtain ⟨-, hd⟩ := (storedAt_of_eq he hv).1 hst
      exact ⟨0, _, Iff.mpr storedAt_update_write (.inl ⟨rfl, rfl, hd⟩)⟩
    · exact ⟨k, held, Iff.mpr storedAt_update_write (.inr ⟨hk, hst⟩)⟩

/-- One operation keeps the invariant, for a ghost that loses only what the operation returns. -/
theorem DepsSound.pushStep (hs : DepsSound onlyCompareMetadata self reads) {op : PushOp V L}
    {returned : Finset (Nat × Nat)} (h : self.pushStep onlyCompareMetadata op = some (self', returned)) :
    ∃ reads', DepsSound onlyCompareMetadata self' reads' ∧
      ∀ dep, ∀ r ∈ reads dep, r ∈ reads' dep ∨ dep ∈ returned := by
  cases op with
  | setBaseValue baseValueWithLayout =>
    simp only [VersionedValue.pushStep, Option.map_eq_some_iff, Prod.mk.injEq] at h
    obtain ⟨self'', hset, rfl, rfl⟩ := h
    exact ⟨reads, hs.setBaseValue hset, fun _ _ hr => .inl hr⟩
  | fetchDataAndRecordDependency txnIdx incarnation =>
    simp only [VersionedValue.pushStep] at h
    rcases read_writesOnly self hs.writesOnly txnIdx incarnation with
      ⟨-, hread⟩ | ⟨k, entry, incarnation', v, deps, -, -, hread⟩
    · -- nothing below the reader: nothing recorded
      simp only [hread, Option.map_some, Option.some.injEq, Prod.mk.injEq] at h
      obtain ⟨rfl, rfl⟩ := h
      exact ⟨reads, hs, fun _ _ hr => .inl hr⟩
    · have hsound := hs.fetch hread
      simp only [hread, Option.map_some, Option.some.injEq, Prod.mk.injEq] at h
      obtain ⟨rfl, rfl⟩ := h
      refine ⟨reads, hsound.mono fun dep r hr => ?_, fun _ _ hr => .inl hr⟩
      by_cases hdep : dep = (txnIdx, incarnation)
      · subst hdep
        simp [hr]
      · rwa [Function.update_of_ne hdep]
  | writeV2 txnIdx incarnation data maybeLayout =>
    simp only [VersionedValue.pushStep, Option.map_eq_some_iff, Prod.mk.injEq] at h
    obtain ⟨⟨returned', self''⟩, hwrite, rfl, rfl⟩ := h
    exact ⟨_, hs.writeV2 hwrite, fun _ _ hr => mem_forget_or hr⟩
  | removeV2 txnIdx =>
    simp only [VersionedValue.pushStep, Option.bind_eq_some_iff] at h
    obtain ⟨⟨result, self''⟩, hremove, h⟩ := h
    cases result with
    | error e => simp at h
    | ok returned' =>
      simp only [Except.toOption_ok, Option.map_some, Option.some.injEq, Prod.mk.injEq] at h
      obtain ⟨rfl, rfl⟩ := h
      exact ⟨_, hs.removeV2 hremove, fun _ _ hr => mem_forget_or hr⟩

/-- A whole run keeps the invariant: every outstanding read is still outstanding or its
dependency was returned. -/
theorem DepsSound.pushRun (hs : DepsSound onlyCompareMetadata self reads) {ops : List (PushOp V L)}
    {returned : Finset (Nat × Nat)} (h : self.pushRun onlyCompareMetadata ops = some (self', returned)) :
    ∃ reads', DepsSound onlyCompareMetadata self' reads' ∧
      ∀ dep, ∀ r ∈ reads dep, r ∈ reads' dep ∨ dep ∈ returned := by
  induction ops generalizing self reads returned with
  | nil =>
    simp only [VersionedValue.pushRun, Option.some.injEq, Prod.mk.injEq] at h
    obtain ⟨rfl, rfl⟩ := h
    exact ⟨reads, hs, fun _ _ hr => .inl hr⟩
  | cons op ops ih =>
    simp only [VersionedValue.pushRun, Option.bind_eq_bind, Option.bind_eq_some_iff] at h
    obtain ⟨⟨self₁, returned₁⟩, hstep, ⟨self₂, later⟩, hrun, h⟩ := h
    simp only [Option.pure_def, Option.some.injEq, Prod.mk.injEq] at h
    obtain ⟨rfl, rfl⟩ := h
    obtain ⟨reads₁, hs₁, hkeep₁⟩ := hs.pushStep hstep
    obtain ⟨reads₂, hs₂, hkeep₂⟩ := ih hs₁ hrun
    refine ⟨reads₂, hs₂, fun dep r hr => ?_⟩
    rcases hkeep₁ dep r hr with hr₁ | hret
    · rcases hkeep₂ dep r hr₁ with hr₂ | hret
      · exact .inl hr₂
      · exact .inr (Finset.mem_union_right _ hret)
    · exact .inr (Finset.mem_union_left _ hret)

omit [DecidableEq V] in
/-- A read of a key with writes only returns the value of the nearest write below the reader. -/
theorem read_of_nearestBelow (hw : WritesOnly self.versionedMap) {readerTxnIdx k incarnation : Nat}
    {entry : Entry V L} {v : ValueWithLayout V L} {dependencies : Finset (Nat × Nat)}
    (hnear : NearestBelow self.versionedMap k readerTxnIdx) (he : self.versionedMap k = some entry)
    (hv : entry.value = .resourceWrite incarnation v dependencies) :
    (self.read readerTxnIdx none).1 = some (.ok (.versioned (versionAt k incarnation) v)) := by
  have hl := lastAtOrBelow_of_nearest hnear.1 he hnear.2
  rcases readBelow_writesOnly hw readerTxnIdx with ⟨hl', -⟩ | ⟨k', entry', incarnation', v', deps', hl', hv', hr⟩
  · rw [hl] at hl'
    cases hl'
  · rw [hl] at hl'
    obtain ⟨rfl, rfl⟩ := Prod.mk.inj (Option.some.inj hl')
    rw [hv] at hv'
    cases hv'
    simp [read, hr]

end Runs

/-- Push validation loses no invalidation: a dependency that a read of `v` recorded on a key is,
after any later run on it, returned by that run, or stored on exactly one write, the nearest below
the reader, whose value agrees with `v` and is what a fresh read (`fetch_data_no_record`) returns. -/
theorem pushRun_fetch_dependency_tracked [DecidableEq V] (onlyCompareMetadata : Bool)
    (ops₁ ops₂ : List (PushOp V L)) (readerTxnIdx readerIncarnation : Nat)
    {self₁ self₂ self₃ : VersionedValue V L} {returned₁ returned₂ : Finset (Nat × Nat)}
    {version : Version} {v : ValueWithLayout V L}
    (h₁ : pushRun onlyCompareMetadata ⟨fun _ => none⟩ ops₁ = some (self₁, returned₁))
    (hfetch : self₁.read readerTxnIdx (some readerIncarnation) =
      (some (.ok (.versioned version v)), self₂))
    (h₂ : self₂.pushRun onlyCompareMetadata ops₂ = some (self₃, returned₂)) :
    (readerTxnIdx, readerIncarnation) ∈ returned₂ ∨
      ∃ k held, StoredAt self₃.versionedMap (readerTxnIdx, readerIncarnation) k held ∧
        NearestBelow self₃.versionedMap k readerTxnIdx ∧ Agrees onlyCompareMetadata v held ∧
        (∀ k' held', StoredAt self₃.versionedMap (readerTxnIdx, readerIncarnation) k' held' → k' = k) ∧
        ∃ version', (self₃.read readerTxnIdx none).1 = some (.ok (.versioned version' held)) := by
  obtain ⟨reads₁, hs₁, -⟩ := DepsSound.pushRun depsSound_empty h₁
  obtain ⟨reads₃, hs₃, hkeep⟩ := (hs₁.fetch hfetch).pushRun h₂
  rcases hkeep (readerTxnIdx, readerIncarnation) v (by simp) with hv | hret
  · obtain ⟨k, held, hst⟩ := hs₃.stored _ v hv
    have hnear := hs₃.nearest _ _ _ hst
    obtain ⟨entry, incarnation, dependencies, he, hvalue, -⟩ := id hst
    refine .inr ⟨k, held, hst, hnear, hs₃.agrees _ _ _ hst v hv,
      fun k' held' hst' => (hs₃.storedAt_unique hst hst').1, versionAt k incarnation, ?_⟩
    exact read_of_nearestBelow hs₃.writesOnly hnear he hvalue
  · exact .inl hret


open VersionedData in
/-- Transaction 2 reads the base value `5`, and transaction 0 then writes `5` again. -/
theorem pushRun_fetch_dependency_tracked_rewrite :
    ∃ (self₁ self₂ self₃ : VersionedValue MockValue Unit) (returned₁ returned₂ : Finset (Nat × Nat)),
      pushRun false ⟨fun _ => none⟩ [.setBaseValue (.exchanged ⟨some 5⟩ none)] = some (self₁, returned₁) ∧
      self₁.read 2 (some 0) = (some (.ok (.versioned none (.exchanged ⟨some 5⟩ none))), self₂) ∧
      self₂.pushRun false [.writeV2 0 0 ⟨some 5⟩ none] = some (self₃, returned₂) ∧
      ((2, 0) ∈ returned₂ ∨
        ∃ k held, StoredAt self₃.versionedMap (2, 0) k held ∧ NearestBelow self₃.versionedMap k 2 ∧
          Agrees false (.exchanged ⟨some 5⟩ none) held ∧
          (∀ k' held', StoredAt self₃.versionedMap (2, 0) k' held' → k' = k) ∧
          ∃ version', (self₃.read 2 none).1 = some (.ok (.versioned version' held))) :=
  ⟨_, _, _, _, _, rfl, rfl, rfl, pushRun_fetch_dependency_tracked false
    [.setBaseValue (.exchanged ⟨some 5⟩ none)] [.writeV2 0 0 ⟨some 5⟩ none] 2 0 rfl rfl rfl⟩

open VersionedData in
/-- Where a dependency is kept on a value that does not compare equal to what its reader read:
a value with a layout, which never compares equal, not even to itself; and a raw base value
that `set_base_value` exchanges in place, keeping the dependency, so that a fresh read returns
another value. -/
theorem pushRun_fetch_dependency_counterexample :
    (∃ (self₁ self₂ : VersionedValue MockValue Unit) (returned₁ : Finset (Nat × Nat)),
      pushRun false ⟨fun _ => none⟩ [.writeV2 0 0 ⟨some 5⟩ (some ())] = some (self₁, returned₁) ∧
      self₁.read 1 (some 0) =
        (some (.ok (.versioned (some (0, 0)) (.exchanged ⟨some 5⟩ (some ())))), self₂) ∧
      self₂.versionedMap 1 = some ⟨.resourceWrite 0 (.exchanged ⟨some 5⟩ (some ())) {(1, 0)}, false⟩ ∧
      compareValuesAndLayouts false (⟨some 5⟩ : MockValue) ⟨some 5⟩ (some ()) (some ()) = false) ∧
    ∃ (self₁ self₂ self₃ : VersionedValue MockValue Unit) (returned₁ returned₂ : Finset (Nat × Nat)),
      pushRun false ⟨fun _ => none⟩ [.setBaseValue (.rawFromStorage ⟨some 5⟩)] = some (self₁, returned₁) ∧
      self₁.read 1 (some 0) = (some (.ok (.versioned none (.rawFromStorage ⟨some 5⟩))), self₂) ∧
      self₂.pushRun false [.setBaseValue (.exchanged ⟨some 7⟩ none)] = some (self₃, returned₂) ∧
      (1, 0) ∉ returned₂ ∧
      self₃.versionedMap 0 = some ⟨.resourceWrite 0 (.exchanged ⟨some 7⟩ none) {(1, 0)}, false⟩ ∧
      (self₃.read 1 none).1 = some (.ok (.versioned none (.exchanged ⟨some 7⟩ none))) ∧
      compareValuesAndLayouts false (⟨some 5⟩ : MockValue) ⟨some 7⟩ (none : Option Unit) none = false :=
  ⟨⟨_, _, _, rfl, rfl, by decide, by decide⟩,
    _, _, _, _, _, rfl, rfl, rfl, by decide, by decide, by decide, by decide⟩

end VersionedValue

end CreditChain
