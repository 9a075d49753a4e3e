import CreditChain.Aggregator.DeltaMath

/-!
# Delta operations

`DeltaWithMax` and `DeltaOp` of `delta_change_set.rs`: an accumulated update with its limit, and
(for `DeltaOp`) the history that restricts the bases it may be applied to.

What a delta op is for is `DeltaOp.denote`: the partial map on `[0, max_value]` that sends an
admitted base to the base shifted by the update.  `apply_to` computes it
(`applyTo_eq_ok_iff_denote`), and `create_merged_delta` computes the sequential composition of two
such maps: merging is associative composition of partial functions, so deltas recorded at
consecutive transactions can be merged pairwise in any grouping.  Both facts hold for well-formed
ops, and merging keeps ops well formed, so merges can be chained.
-/

namespace CreditChain

open SignedU128

/-- `DeltaWithMax`. -/
structure DeltaWithMax where
  update : SignedU128
  maxValue : Nat
  deriving DecidableEq, Repr

namespace DeltaWithMax

def applyTo (self : DeltaWithMax) (base : Nat) : Except DelayedFieldsSpeculativeError Nat :=
  let math : BoundedMath := ⟨self.maxValue⟩
  match self.update with
  | positive value => (math.unsignedAdd base value).mapError fun _ =>
      .deltaApplication base self.maxValue self.update .overflow
  | negative value => (math.unsignedSubtract base value).mapError fun _ =>
      .deltaApplication base self.maxValue self.update .underflow

def createMergedDelta (prevDelta nextDelta : DeltaWithMax) :
    Except (PanicOr DelayedFieldsSpeculativeError) DeltaWithMax :=
  if prevDelta.maxValue ≠ nextDelta.maxValue then
    .error (.ofPanicError (codeInvariantError "Cannot merge deltas with different limits"))
  else do
    let newDelta ← ((BoundedMath.mk prevDelta.maxValue).signedAdd prevDelta.update
      nextDelta.update).mapError fun _ =>
        .or (.deltaMerge prevDelta.update nextDelta.update prevDelta.maxValue)
    pure ⟨newDelta, prevDelta.maxValue⟩

theorem createMergedDelta_eq_ok {prevDelta nextDelta : DeltaWithMax}
    (hm : prevDelta.maxValue = nextDelta.maxValue) {s : SignedU128}
    (hs : (BoundedMath.mk prevDelta.maxValue).signedAdd prevDelta.update nextDelta.update = .ok s) :
    prevDelta.createMergedDelta nextDelta = .ok ⟨s, prevDelta.maxValue⟩ := by
  unfold createMergedDelta
  rw [if_neg (not_not_intro hm), hs]
  rfl

end DeltaWithMax

/-- `DeltaOp`. -/
structure DeltaOp where
  history : DeltaHistory
  maxValue : Nat
  update : SignedU128
  deriving DecidableEq, Repr

namespace DeltaOp

def new (update : SignedU128) (maxValue : Nat) (history : DeltaHistory) : DeltaOp :=
  { history, maxValue, update }

def applyTo (self : DeltaOp) (base : Nat) : Except (PanicOr DelayedFieldsSpeculativeError) Nat :=
  mergeDataAndDelta base self.update self.history self.maxValue

def createMergedDelta (prevDelta nextDelta : DeltaOp) :
    Except (PanicOr DelayedFieldsSpeculativeError) DeltaOp :=
  if prevDelta.maxValue ≠ nextDelta.maxValue then
    .error (.ofPanicError (codeInvariantError "Cannot merge deltas with different limits"))
  else do
    let (newUpdate, newHistory) ← mergeTwoDeltas prevDelta.update prevDelta.history
      nextDelta.update nextDelta.history nextDelta.maxValue
    pure (new newUpdate nextDelta.maxValue newHistory)

/-- `merge_with_previous_delta`: `self` becomes the merge of `previous_delta` followed by `self`. -/
def mergeWithPreviousDelta (self previousDelta : DeltaOp) :
    Except (PanicOr DelayedFieldsSpeculativeError) DeltaOp :=
  createMergedDelta previousDelta self

/-- `merge_with_next_delta`: `self` becomes the merge of `self` followed by `next_delta`. -/
def mergeWithNextDelta (self nextDelta : DeltaOp) :
    Except (PanicOr DelayedFieldsSpeculativeError) DeltaOp :=
  createMergedDelta self nextDelta

/-- A delta op is well formed when its update lies within its achieved bounds and its failure
bounds lie in `[0, max_value]`. -/
def WellFormed (op : DeltaOp) : Prop :=
  op.history.Covers op.update ∧ op.history.FailuresBounded op.maxValue

instance (op : DeltaOp) : Decidable op.WellFormed := inferInstanceAs (Decidable (_ ∧ _))

/-! ### What a delta op denotes -/

/-- The partial map on bases a delta op stands for. -/
def denote (op : DeltaOp) (x : Nat) : Option Nat :=
  if op.history.Admits op.maxValue x then some ((x : Int) + op.update.toInt).toNat else none

variable {op a b c : DeltaOp} {x : Nat}

theorem denote_of_admits (hx : op.history.Admits op.maxValue x) :
    op.denote x = some ((x : Int) + op.update.toInt).toNat := if_pos hx

theorem denote_of_not_admits (hx : ¬ op.history.Admits op.maxValue x) : op.denote x = none :=
  if_neg hx

theorem applyTo_eq_ok (hw : op.WellFormed) {z : Nat} :
    op.applyTo x = .ok z ↔ op.history.Admits op.maxValue x ∧ (z : Int) = x + op.update.toInt :=
  mergeDataAndDelta_eq_ok hw.1 hw.2

/-- `apply_to` computes the denotation of a well-formed op. -/
theorem applyTo_eq_ok_iff_denote (hw : op.WellFormed) {z : Nat} :
    op.applyTo x = .ok z ↔ op.denote x = some z := by
  rw [applyTo_eq_ok hw]
  by_cases hx : op.history.Admits op.maxValue x
  · obtain ⟨h0, -⟩ := hx.add_covers hw.1
    rw [denote_of_admits hx]
    simp only [hx, true_and, Option.some.injEq]
    omega
  · rw [denote_of_not_admits hx]
    simp [hx]

/-- `apply_to` of a well-formed op fails only with a non-panic error. -/
theorem applyTo_eq_error (hw : op.WellFormed) {e : PanicOr DelayedFieldsSpeculativeError}
    (he : op.applyTo x = .error e) : (∃ e₀, e = .or e₀) ∧ op.denote x = none := by
  obtain ⟨h1, h2⟩ := mergeDataAndDelta_eq_error hw.1 hw.2 he
  exact ⟨h1, denote_of_not_admits h2⟩

/-- The outcomes of `create_merged_delta` on well-formed ops with one limit: a merged op built from
the merged history and the summed update, or the history merge's own error. -/
theorem createMergedDelta_cases (hm : a.maxValue = b.maxValue) (ha : a.WellFormed)
    (hb : b.WellFormed) :
    (∃ h', b.history.offsetAndMergeHistory a.update a.history b.maxValue = .ok h' ∧ ∃ s,
        (BoundedMath.mk b.maxValue).signedAdd a.update b.update = .ok s ∧
        createMergedDelta a b = .ok (new s b.maxValue h')) ∨
      ∃ e, b.history.offsetAndMergeHistory a.update a.history b.maxValue = .error e ∧
        createMergedDelta a b = .error (.or e) := by
  unfold createMergedDelta
  rw [if_neg (not_not_intro hm)]
  rcases @mergeTwoDeltas_cases b.maxValue a.update b.update a.history b.history ha.1 hb.1 with
    ⟨h', hh, s, hs, heq⟩ | ⟨e, he, heq⟩
  · exact .inl ⟨h', hh, s, hs, by simp [heq]⟩
  · exact .inr ⟨e, he, by simp [heq]⟩

/-- A successful merge of well-formed ops is well formed again. -/
theorem WellFormed.createMergedDelta (hm : a.maxValue = b.maxValue) (ha : a.WellFormed)
    (hb : b.WellFormed) (hc : createMergedDelta a b = .ok c) : c.WellFormed ∧ c.maxValue = b.maxValue := by
  rcases createMergedDelta_cases hm ha hb with ⟨h', hh, s, hs, heq⟩ | ⟨e, -, heq⟩
  · rw [heq, Except.ok.injEq] at hc
    subst hc
    obtain ⟨h1, h2, -⟩ := DeltaHistory.covers_offsetAndMergeHistory ha.1 hb.1 hh
    have hsum := BoundedMath.signedAdd_toInt hs
    refine ⟨⟨⟨?_, ?_⟩, ?_⟩, rfl⟩
    · delta new; simp only [hsum]; exact h1
    · delta new; simp only [hsum]; exact h2
    · exact DeltaHistory.FailuresBounded.offsetAndMergeHistory hb.2 (hm ▸ ha.2) hh
  · rw [heq] at hc; cases hc

/-- `create_merged_delta` denotes sequential composition: the merged op maps `x` to `z` exactly
when the earlier op maps `x` to some `y` and the later one maps `y` to `z`. -/
theorem denote_createMergedDelta (hm : a.maxValue = b.maxValue) (ha : a.WellFormed)
    (hb : b.WellFormed) (hc : createMergedDelta a b = .ok c) (x : Nat) :
    c.denote x = (a.denote x).bind b.denote := by
  rcases createMergedDelta_cases hm ha hb with ⟨h', hh, s, hs, heq⟩ | ⟨e, -, heq⟩
  · rw [heq, Except.ok.injEq] at hc
    subst hc
    have hsum := BoundedMath.signedAdd_toInt hs
    have hadm := DeltaHistory.admits_offsetAndMergeHistory hh (x : Int)
    by_cases hx : a.history.Admits a.maxValue x
    · obtain ⟨h0, -⟩ := hx.add_covers ha.1
      have hy : ((((x : Int) + a.update.toInt).toNat : Nat) : Int) = x + a.update.toInt := by
        omega
      rw [denote_of_admits hx, Option.bind_some]
      delta denote new
      rw [hm] at hx
      simp only [hadm, hx, true_and, hy, hsum]
      split <;> simp only [Option.some.injEq]
      omega
    · rw [denote_of_not_admits hx, Option.bind_none]
      delta denote new
      rw [hm] at hx
      simp [hadm, hx]
  · rw [heq] at hc; cases hc

/-- When the history merge rejects two well-formed ops, no base in range is carried through
both. -/
theorem denote_eq_none_of_createMergedDelta_eq_error (hm : a.maxValue = b.maxValue)
    (ha : a.WellFormed) (hb : b.WellFormed) {e : DelayedFieldsSpeculativeError}
    (hc : createMergedDelta a b = .error (.or e)) (x : Nat) : (a.denote x).bind b.denote = none := by
  rcases createMergedDelta_cases hm ha hb with ⟨h', -, s, -, heq⟩ | ⟨e', he, -⟩
  · rw [heq] at hc; cases hc
  · have hna := DeltaHistory.not_admits_of_offsetAndMergeHistory_eq_error he (x : Int)
    by_cases hx : a.history.Admits a.maxValue x
    · obtain ⟨h0, -⟩ := hx.add_covers ha.1
      have hy : ((((x : Int) + a.update.toInt).toNat : Nat) : Int) = x + a.update.toInt := by
        omega
      rw [denote_of_admits hx, Option.bind_some]
      rw [hm] at hx
      have hby : ¬ b.history.Admits b.maxValue (((x : Int) + a.update.toInt).toNat : Nat) := by
        rw [hy]; exact fun hby => hna ⟨hx, hby⟩
      exact denote_of_not_admits hby
    · rw [denote_of_not_admits hx, Option.bind_none]

/-- Merging is sequential composition: for well-formed ops `a`, `b` with one limit, a successful
`create_merged_delta` gives a well-formed op with that limit whose `apply_to` succeeds with `z`
exactly when `a.apply_to` then `b.apply_to` do; a non-panic error means no base in range is
carried through both; and the merge never returns the code-invariant error. -/
theorem createMergedDelta_seq {m : Nat} (ham : a.maxValue = m) (hbm : b.maxValue = m)
    (ha : a.WellFormed) (hb : b.WellFormed) :
    (∀ c, createMergedDelta a b = .ok c →
      c.WellFormed ∧ c.maxValue = m ∧
        ∀ x ≤ m, ∀ z, c.applyTo x = .ok z ↔ ∃ y, a.applyTo x = .ok y ∧ b.applyTo y = .ok z) ∧
    (∀ e, createMergedDelta a b = .error (.or e) →
      ∀ x ≤ m, ¬ ∃ y z, a.applyTo x = .ok y ∧ b.applyTo y = .ok z) ∧
    ∀ msg, createMergedDelta a b ≠ .error (.codeInvariantError msg) := by
  have hm : a.maxValue = b.maxValue := ham.trans hbm.symm
  refine ⟨fun c hc => ?_, fun e he x _ => ?_, fun msg hmsg => ?_⟩
  · obtain ⟨hwc, hcm⟩ := WellFormed.createMergedDelta hm ha hb hc
    refine ⟨hwc, hcm.trans hbm, fun x _ z => ?_⟩
    simp only [applyTo_eq_ok_iff_denote hwc, applyTo_eq_ok_iff_denote ha,
      applyTo_eq_ok_iff_denote hb, denote_createMergedDelta hm ha hb hc, Option.bind_eq_some_iff]
  · rintro ⟨y, z, hy, hz⟩
    have h := denote_eq_none_of_createMergedDelta_eq_error hm ha hb he x
    rw [(applyTo_eq_ok_iff_denote ha).1 hy, Option.bind_some, (applyTo_eq_ok_iff_denote hb).1 hz]
      at h
    cases h
  · rcases createMergedDelta_cases hm ha hb with ⟨h', -, s, -, heq⟩ | ⟨e, -, heq⟩
    · rw [heq] at hmsg; cases hmsg
    · rw [heq] at hmsg; cases hmsg

/-- Merging `+3` (achieved `+3`) with a later `-2` (achieved `-2`) under limit 10. -/
theorem createMergedDelta_seq_plus_minus :
    ∃ c, createMergedDelta (new (positive 3) 10 ⟨3, 0, none, none⟩)
        (new (negative 2) 10 ⟨0, 2, none, none⟩) = .ok c ∧
      c.WellFormed ∧ c.maxValue = 10 ∧
        ∀ x ≤ 10, ∀ z, c.applyTo x = .ok z ↔
          ∃ y, (new (positive 3) 10 ⟨3, 0, none, none⟩).applyTo x = .ok y ∧
            (new (negative 2) 10 ⟨0, 2, none, none⟩).applyTo y = .ok z :=
  have ⟨c, hc⟩ : ∃ c, createMergedDelta (new (positive 3) 10 ⟨3, 0, none, none⟩)
      (new (negative 2) 10 ⟨0, 2, none, none⟩) = .ok c := ⟨_, rfl⟩
  ⟨c, hc, (@createMergedDelta_seq (new (positive 3) 10 ⟨3, 0, none, none⟩)
    (new (negative 2) 10 ⟨0, 2, none, none⟩) 10 rfl rfl (by decide) (by decide)).1 c hc⟩

end DeltaOp

end CreditChain
