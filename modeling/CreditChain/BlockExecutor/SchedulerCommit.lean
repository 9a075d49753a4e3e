import CreditChain.BlockExecutor.SchedulerStatus
import Mathlib.Order.Interval.Finset.Nat
import Mathlib.Tactic.IntervalCases
import Mathlib.Order.Lattice.Nat

/-!
# What a commit of the scheduler rests on

`try_commit` commits the transaction at the commit index when its highest validated wave is at
least the commit wave and the transaction's required wave (the description of `ValidationStatus`
in `scheduler.rs`).  This module says what that buys over a whole run of calls.

The waves that a validation of a transaction `x` must reach are the commit wave with the waves
triggered from the commit index up to `x` (`commitBound`), and `x`'s own required wave
(`revalidationBound`).  Along a run of the calls of the commit contract (every operation but
`halt`, with `wake_dependencies_and_decrease_validation_idx` made as the executor makes it, for the
transaction it has just committed), `CommitInv` holds: every transaction below the commit index is
committed, the wave of the validation index is within the commit bound of that index, and no
required wave is above it.  One call only raises the bounds (`WavesGrow`), and a call after which
`x` has to be validated again (`SchedulerCall.Revalidates`) leaves the validation wave within
`x`'s bound (`WaveStep`).  The validated wave a commit reads is therefore at least the validation
wave after every such call of the run.

That validation need not be one of the incarnation being committed: the commit rule compares
waves, and a validation of an earlier incarnation in the same wave passes it.
-/

namespace CreditChain

namespace Scheduler

/-! ## The bounds of the commit rule -/

/-- The wave a validation of `x` must reach before the commit index can pass `x`: the commit wave,
and the waves triggered from the commit index up to `x`. -/
def commitBound (s : Scheduler) (x : Nat) : Nat :=
  max s.commitState.2
    ((Finset.Icc s.commitState.1 x).sup fun y => (s.validationStatus y).maxTriggeredWave)

/-- `commitBound`, with the wave `x` itself requires. -/
def revalidationBound (s : Scheduler) (x : Nat) : Nat :=
  max (s.commitBound x) (s.validationStatus x).requiredWave

section Bounds

variable {s s' : Scheduler}

theorem commitWave_le_commitBound (x : Nat) : s.commitState.2 ≤ s.commitBound x :=
  le_max_left _ _

theorem maxTriggeredWave_le_commitBound {x y : Nat} (hy : s.commitState.1 ≤ y) (hyx : y ≤ x) :
    (s.validationStatus y).maxTriggeredWave ≤ s.commitBound x :=
  le_max_of_le_right
    (Finset.le_sup (f := fun y => (s.validationStatus y).maxTriggeredWave)
      (Finset.mem_Icc.mpr ⟨hy, hyx⟩))

theorem commitBound_le_iff {x n : Nat} :
    s.commitBound x ≤ n ↔ s.commitState.2 ≤ n ∧
      ∀ y, s.commitState.1 ≤ y → y ≤ x → (s.validationStatus y).maxTriggeredWave ≤ n := by
  delta commitBound
  simp [Finset.sup_le_iff, Finset.mem_Icc, and_imp]

theorem commitBound_mono {x x' : Nat} (h : x ≤ x') : s.commitBound x ≤ s.commitBound x' :=
  Iff.mpr commitBound_le_iff ⟨commitWave_le_commitBound x', fun _ hy hyx =>
    maxTriggeredWave_le_commitBound hy (hyx.trans h)⟩

/-- At the commit index the bound is what `try_commit` compares with: the commit wave and the
triggered wave there. -/
theorem commitBound_commitIdx :
    s.commitBound s.commitState.1 =
      max s.commitState.2 (s.validationStatus s.commitState.1).maxTriggeredWave := by
  delta commitBound
  simp

/-- The bound reads the commit state and the triggered waves only. -/
theorem commitBound_congr (hcs : s'.commitState = s.commitState)
    (hmtw : ∀ y, (s'.validationStatus y).maxTriggeredWave = (s.validationStatus y).maxTriggeredWave) :
    s'.commitBound = s.commitBound := by
  funext x
  delta commitBound
  simp only [hcs, hmtw]

/-- With the same commit index, a higher commit wave and higher triggered waves raise the bound. -/
theorem commitBound_le_of_le (hidx : s'.commitState.1 = s.commitState.1)
    (hwave : s.commitState.2 ≤ s'.commitState.2)
    (hmtw : ∀ y, (s.validationStatus y).maxTriggeredWave ≤ (s'.validationStatus y).maxTriggeredWave)
    (x : Nat) : s.commitBound x ≤ s'.commitBound x :=
  Iff.mpr commitBound_le_iff ⟨hwave.trans (commitWave_le_commitBound x), fun y hy hyx =>
    (hmtw y).trans (maxTriggeredWave_le_commitBound (hidx ▸ hy) hyx)⟩

/-- Passing the commit index over a transaction raises the commit wave to its triggered wave, so
no bound goes down. -/
theorem commitBound_le_of_commit
    (hcs : s'.commitState = (s.commitState.1 + 1,
      max s.commitState.2 (s.validationStatus s.commitState.1).maxTriggeredWave))
    (hvs : s'.validationStatus = s.validationStatus) (x : Nat) :
    s.commitBound x ≤ s'.commitBound x := by
  have hwave : max s.commitState.2 (s.validationStatus s.commitState.1).maxTriggeredWave ≤
      s'.commitBound x := by
    have h := commitWave_le_commitBound (s := s') x
    rwa [hcs] at h
  refine Iff.mpr commitBound_le_iff ⟨(le_max_left _ _).trans hwave, fun y hy hyx => ?_⟩
  rcases hy.eq_or_lt with rfl | hlt
  · exact (le_max_right _ _).trans hwave
  · rw [← hvs]
    exact maxTriggeredWave_le_commitBound (by rw [hcs]; exact hlt) hyx

end Bounds

/-! ## The invariant and how one call moves the waves -/

/-- The wave half of the invariant behind the commit rule. -/
structure WaveInv (s : Scheduler) : Prop where
  commitIdx_le : s.commitState.1 ≤ s.numTxns
  /-- The wave of the validation index was triggered at or below it, past the commit index. -/
  wave_le : s.validationIdx.2 ≤ s.commitBound s.validationIdx.1
  /-- A required wave is a wave the validation index has had. -/
  requiredWave_le : ∀ x, (s.validationStatus x).requiredWave ≤ s.validationIdx.2

/-- The invariant behind the commit rule. -/
structure CommitInv (s : Scheduler) : Prop extends WaveInv s where
  committed : ∀ j < s.commitState.1, ∃ k, s.executionStatus j = .committed k

/-- Across a call the bounds of the commit rule only grow. -/
structure WavesGrow (s s' : Scheduler) : Prop where
  numTxns_eq : s'.numTxns = s.numTxns
  commitBound_le : ∀ x, s.commitBound x ≤ s'.commitBound x
  requiredWave_le : ∀ x, (s.validationStatus x).requiredWave ≤ (s'.validationStatus x).requiredWave

/-- The calls after which transaction `i` has to be validated again before it can commit: an
abort below it, an execution below it that revalidates its suffix, the executor's wake-up of a
transaction below it, and every execution of `i` itself. -/
def SchedulerCall.Revalidates (i : Nat) : SchedulerCall → Prop
  | .finishAbort txnIdx _ => txnIdx < i
  | .finishExecution txnIdx _ revalidateSuffix => txnIdx < i ∧ revalidateSuffix = true ∨ txnIdx = i
  | .wakeDependenciesAndDecreaseValidationIdx txnIdx => txnIdx < i
  | _ => False

/-- The calls of the commit contract: every operation but `halt`, and
`wake_dependencies_and_decrease_validation_idx` for a transaction that is committed or next to
commit, as the executor calls it once it has committed the transaction. -/
def admits (s : Scheduler) : SchedulerCall → Bool
  | .halt => false
  | .wakeDependenciesAndDecreaseValidationIdx txnIdx => decide (s.commitState.1 ≤ txnIdx + 1)
  | _ => true

theorem admits_halt (s : Scheduler) : s.admits .halt = false := rfl

theorem admits_wakeDependenciesAndDecreaseValidationIdx (s : Scheduler) (txnIdx : Nat) :
    s.admits (.wakeDependenciesAndDecreaseValidationIdx txnIdx) =
      decide (s.commitState.1 ≤ txnIdx + 1) := rfl

/-- Every call of a run is admitted in the state it is made in. -/
def admitsRun (s : Scheduler) : List SchedulerCall → Bool
  | [] => true
  | c :: calls => s.admits c && match s.call c with
    | .ok (_, s') => s'.admitsRun calls
    | .error _ => true

theorem admitsRun_cons_eq (s : Scheduler) (c : SchedulerCall) (calls : List SchedulerCall) :
    s.admitsRun (c :: calls) = (s.admits c && match s.call c with
      | .ok (_, s') => s'.admitsRun calls
      | .error _ => true) := rfl

theorem admitsRun_cons {s s' : Scheduler} {c : SchedulerCall} {o : CallOutput}
    (h : s.call c = .ok (o, s')) {calls : List SchedulerCall} :
    s.admitsRun (c :: calls) = (s.admits c && s'.admitsRun calls) := by
  rw [admitsRun_cons_eq, h]

/-- What one call does for the commit rule: the wave invariant holds after it, the bounds grow,
a transaction it revalidates has the validation wave within its bound, and a validated wave is
old or the one `finish_validation` recorded. -/
structure WaveStep (s : Scheduler) (c : SchedulerCall) (s' : Scheduler) : Prop where
  inv : WaveInv s'
  grows : WavesGrow s s'
  revalidated : ∀ i, c.Revalidates i → i < s.numTxns → s'.validationIdx.2 ≤ s'.revalidationBound i
  validated : ∀ x w, (s'.validationStatus x).maybeMaxValidatedWave = some w →
    (s.validationStatus x).maybeMaxValidatedWave = some w ∨ c = .finishValidation x w
  /-- Only `try_commit` moves the commit index. -/
  commitIdx : s'.commitState.1 = s.commitState.1 ∨ c = .tryCommit

/-- The validation statuses, the validation index and the commit state are unchanged: everything
the commit rule reads. -/
structure SameWaves (s s' : Scheduler) : Prop where
  numTxns_eq : s'.numTxns = s.numTxns
  validationStatus_eq : s'.validationStatus = s.validationStatus
  validationIdx_eq : s'.validationIdx = s.validationIdx
  commitState_eq : s'.commitState = s.commitState

/-- The validation index is lowered in a new wave, or left: triggered waves only grow, and the
other waves stay. -/
structure Lowered (s s' : Scheduler) : Prop where
  numTxns_eq : s'.numTxns = s.numTxns
  commitState_eq : s'.commitState = s.commitState
  maxTriggeredWave_le : ∀ y,
    (s.validationStatus y).maxTriggeredWave ≤ (s'.validationStatus y).maxTriggeredWave
  requiredWave_eq : ∀ y, (s'.validationStatus y).requiredWave = (s.validationStatus y).requiredWave
  maybeMaxValidatedWave_eq : ∀ y,
    (s'.validationStatus y).maybeMaxValidatedWave = (s.validationStatus y).maybeMaxValidatedWave
  wave_le : s.validationIdx.2 ≤ s'.validationIdx.2

section Steps

variable {s s' s'' : Scheduler}

theorem WavesGrow.refl (s : Scheduler) : WavesGrow s s :=
  ⟨rfl, fun _ => le_rfl, fun _ => le_rfl⟩

theorem WavesGrow.trans (h₁ : WavesGrow s s') (h₂ : WavesGrow s' s'') : WavesGrow s s'' :=
  ⟨h₂.numTxns_eq.trans h₁.numTxns_eq, fun x => (h₁.commitBound_le x).trans (h₂.commitBound_le x),
    fun x => (h₁.requiredWave_le x).trans (h₂.requiredWave_le x)⟩

theorem WavesGrow.revalidationBound_le (h : WavesGrow s s') (x : Nat) :
    s.revalidationBound x ≤ s'.revalidationBound x :=
  max_le_max (h.commitBound_le x) (h.requiredWave_le x)

theorem SameWaves.refl (s : Scheduler) : SameWaves s s := ⟨rfl, rfl, rfl, rfl⟩

theorem SameWaves.trans (h₁ : SameWaves s s') (h₂ : SameWaves s' s'') : SameWaves s s'' :=
  ⟨h₂.numTxns_eq.trans h₁.numTxns_eq, h₂.validationStatus_eq.trans h₁.validationStatus_eq,
    h₂.validationIdx_eq.trans h₁.validationIdx_eq, h₂.commitState_eq.trans h₁.commitState_eq⟩

theorem SameWaves.commitBound_eq (h : SameWaves s s') : s'.commitBound = s.commitBound :=
  commitBound_congr h.commitState_eq (by simp [h.validationStatus_eq])

theorem SameWaves.lowered (h : SameWaves s s') : Lowered s s' :=
  ⟨h.numTxns_eq, h.commitState_eq, by simp [h.validationStatus_eq],
    by simp [h.validationStatus_eq], by simp [h.validationStatus_eq],
    h.validationIdx_eq.symm ▸ le_rfl⟩

theorem SameWaves.waveInv (h : SameWaves s s') (hinv : WaveInv s) : WaveInv s' where
  commitIdx_le := by rw [h.commitState_eq, h.numTxns_eq]; exact hinv.commitIdx_le
  wave_le := by rw [h.commitBound_eq, h.validationIdx_eq]; exact hinv.wave_le
  requiredWave_le := by rw [h.validationStatus_eq, h.validationIdx_eq]; exact hinv.requiredWave_le

theorem Lowered.trans (h₁ : Lowered s s') (h₂ : Lowered s' s'') : Lowered s s'' :=
  ⟨h₂.numTxns_eq.trans h₁.numTxns_eq, h₂.commitState_eq.trans h₁.commitState_eq,
    fun y => (h₁.maxTriggeredWave_le y).trans (h₂.maxTriggeredWave_le y),
    fun y => (h₂.requiredWave_eq y).trans (h₁.requiredWave_eq y),
    fun y => (h₂.maybeMaxValidatedWave_eq y).trans (h₁.maybeMaxValidatedWave_eq y),
    h₁.wave_le.trans h₂.wave_le⟩

theorem Lowered.commitBound_le (h : Lowered s s') (x : Nat) : s.commitBound x ≤ s'.commitBound x :=
  commitBound_le_of_le (congrArg Prod.fst h.commitState_eq) (h.commitState_eq ▸ le_rfl)
    h.maxTriggeredWave_le x

/-- A lowering after which the wave invariant still holds is a step of any call that revalidates
nothing it does not bound. -/
theorem Lowered.waveStep {c : SchedulerCall} (h : Lowered s s') (hinv : WaveInv s)
    (hwave : s'.validationIdx.2 ≤ s'.commitBound s'.validationIdx.1)
    (hrev : ∀ i, c.Revalidates i → i < s.numTxns →
      s'.validationIdx.2 ≤ s'.revalidationBound i) : WaveStep s c s' where
  inv :=
    { commitIdx_le := by rw [h.commitState_eq, h.numTxns_eq]; exact hinv.commitIdx_le
      wave_le := hwave
      requiredWave_le := fun x => by
        rw [h.requiredWave_eq x]
        exact (hinv.requiredWave_le x).trans h.wave_le }
  grows := ⟨h.numTxns_eq, h.commitBound_le, fun x => (h.requiredWave_eq x).ge⟩
  revalidated := hrev
  validated := fun x w hw => .inl (by rw [← h.maybeMaxValidatedWave_eq x]; exact hw)
  commitIdx := .inl (congrArg Prod.fst h.commitState_eq)

/-! ### Lowering the validation index -/

theorem decreaseValidationIdx_lowered (targetIdx : Nat) :
    Lowered s (s.decreaseValidationIdx targetIdx).2 := by
  rcases decreaseValidationIdx_cases (s := s) targetIdx with ⟨hnone, -⟩ | ⟨-, -, hsome⟩
  · rw [hnone]
    exact (SameWaves.refl s).lowered
  · rw [hsome]
    refine ⟨rfl, rfl, fun y => ?_, fun y => ?_, fun y => ?_, Nat.le_succ _⟩ <;>
      by_cases hy : y = targetIdx <;> simp [hy]

/-- Lowering the validation index to `targetIdx`, not below the commit index, starts a wave the
commit rule waits for at every transaction from `targetIdx` on. -/
theorem decreaseValidationIdx_wave_le (hwave : s.validationIdx.2 ≤ s.commitBound s.validationIdx.1)
    {targetIdx : Nat} (hcommit : s.commitState.1 ≤ targetIdx) :
    ∀ i, targetIdx ≤ i → targetIdx ≠ s.numTxns →
      (s.decreaseValidationIdx targetIdx).2.validationIdx.2 ≤
        (s.decreaseValidationIdx targetIdx).2.commitBound i := by
  intro i hi hne
  rcases decreaseValidationIdx_cases (s := s) targetIdx with ⟨hnone, hle⟩ | ⟨-, -, hsome⟩
  · -- the validation index is at or below `targetIdx`, so its wave is already bounded there
    rw [hnone]
    have hidx : s.validationIdx.1 ≤ i := by omega
    exact hwave.trans (commitBound_mono hidx)
  · rw [hsome]
    refine le_trans ?_ (maxTriggeredWave_le_commitBound hcommit hi)
    simp

theorem decreaseValidationIdx_waveInv (hwave : s.validationIdx.2 ≤ s.commitBound s.validationIdx.1)
    {targetIdx : Nat} (hcommit : s.commitState.1 ≤ targetIdx) :
    (s.decreaseValidationIdx targetIdx).2.validationIdx.2 ≤
      (s.decreaseValidationIdx targetIdx).2.commitBound
        (s.decreaseValidationIdx targetIdx).2.validationIdx.1 := by
  rcases decreaseValidationIdx_cases (s := s) targetIdx with ⟨hnone, -⟩ | ⟨hne, -, hsome⟩
  · rw [hnone]
    exact hwave
  · have h := decreaseValidationIdx_wave_le hwave hcommit targetIdx le_rfl hne
    rw [hsome] at h ⊢
    exact h

/-- The two equal states lower the validation index alike. -/
theorem SameWaves.decreaseValidationIdx (h : SameWaves s s') (targetIdx : Nat) :
    SameWaves (s.decreaseValidationIdx targetIdx).2 (s'.decreaseValidationIdx targetIdx).2 := by
  obtain ⟨hn, hvs, hvi, hcs⟩ := h
  unfold Scheduler.decreaseValidationIdx
  dsimp only
  rw [hn, hvs, hvi]
  split_ifs <;> exact ⟨by simp [hn], by simp [hvs], by simp [hvi], by simp [hcs]⟩

/-- A call made of status changes around lowering the validation index to `txnIdx + 1`, for a
transaction not below the commit index, revalidating the transactions above `txnIdx`. -/
theorem WaveStep.of_decrease {c : SchedulerCall} (hinv : WaveInv s) {txnIdx : Nat}
    (hcommit : s.commitState.1 ≤ txnIdx + 1)
    (hs' : SameWaves (s.decreaseValidationIdx (txnIdx + 1)).2 s')
    (hrev : ∀ i, c.Revalidates i → txnIdx < i) : WaveStep s c s' := by
  have hlow : Lowered s s' := (decreaseValidationIdx_lowered (txnIdx + 1)).trans hs'.lowered
  refine hlow.waveStep hinv ?_ fun i hi hlt => ?_
  · rw [hs'.commitBound_eq, hs'.validationIdx_eq]
    exact decreaseValidationIdx_waveInv hinv.wave_le hcommit
  · have hidx : txnIdx < i := hrev i hi
    have hle := decreaseValidationIdx_wave_le hinv.wave_le hcommit i hidx (by omega)
    rw [← hs'.commitBound_eq, ← hs'.validationIdx_eq] at hle
    exact hle.trans (le_max_left _ _)

/-! ### Status changes -/

theorem sameWaves_setExecutionStatus (txnIdx : Nat) (status : ExecutionStatus) :
    SameWaves s (s.setExecutionStatus txnIdx status) :=
  ⟨rfl, rfl, rfl, rfl⟩

theorem setExecutedStatus_sameWaves {txnIdx incarnation : Nat}
    (h : s.setExecutedStatus txnIdx incarnation = .ok s') : SameWaves s s' := by
  rcases setExecutedStatus_eq_ok.mp h with ⟨-, rfl⟩ | ⟨_, -, rfl⟩
  · exact .refl _
  · exact sameWaves_setExecutionStatus _ _

theorem setAbortedStatus_sameWaves {txnIdx incarnation : Nat}
    (h : s.setAbortedStatus txnIdx incarnation = .ok s') : SameWaves s s' := by
  rcases setAbortedStatus_eq_ok.mp h with ⟨-, rfl⟩ | ⟨-, rfl⟩
  · exact .refl _
  · exact sameWaves_setExecutionStatus _ _

theorem wakeDependenciesAfterExecution_sameWaves {txnIdx : Nat}
    (h : s.wakeDependenciesAfterExecution txnIdx = .ok s') : SameWaves s s' := by
  obtain ⟨_, _, rfl, -⟩ := wakeDependenciesAfterExecution_spec h
  exact ⟨rfl, rfl, rfl, rfl⟩

/-- A transaction that `finish_execution` or `finish_abort` can set the status of is not below
the commit index. -/
theorem CommitInv.commitIdx_le_of_uncommitted (hinv : CommitInv s) {txnIdx : Nat}
    (hst : ∀ k, s.executionStatus txnIdx ≠ .committed k) : s.commitState.1 ≤ txnIdx := by
  by_contra hlt
  obtain ⟨k, hk⟩ := hinv.committed txnIdx (by omega)
  exact hst k hk

/-! ### One call -/

theorem tryCommit_waveStep (hinv : WaveInv s) {r : Option (Nat × Nat)}
    (h : s.tryCommit = (r, s')) : WaveStep s .tryCommit s' := by
  rcases tryCommit_cases h with ⟨-, commitWave, hle, rfl⟩ | ⟨k, w, hne, -, -, -, -, doneMarker, rfl⟩
  · -- the commit wave rises and the commit index stays
    have hgrow : ∀ x, s.commitBound x ≤
        commitBound { s with commitState := (s.commitState.1, commitWave) } x :=
      commitBound_le_of_le rfl hle (fun _ => le_rfl)
    exact
      { inv := ⟨hinv.commitIdx_le, hinv.wave_le.trans (hgrow _), hinv.requiredWave_le⟩
        grows := ⟨rfl, hgrow, fun _ => le_rfl⟩
        revalidated := fun _ hrev _ => False.elim hrev
        validated := fun _ _ hw => .inl hw
        commitIdx := .inr rfl }
  · -- the commit index passes a transaction and the commit wave takes its triggered wave
    have hgrow : ∀ x, s.commitBound x ≤ commitBound { s with
        executionStatus := Function.update s.executionStatus s.commitState.1 (.committed k)
        commitState := (s.commitState.1 + 1,
          max s.commitState.2 (s.validationStatus s.commitState.1).maxTriggeredWave)
        doneMarker } x :=
      commitBound_le_of_commit rfl rfl
    exact
      { inv := ⟨by have := hinv.commitIdx_le; dsimp only; omega, hinv.wave_le.trans (hgrow _),
          hinv.requiredWave_le⟩
        grows := ⟨rfl, hgrow, fun _ => le_rfl⟩
        revalidated := fun _ hrev _ => False.elim hrev
        validated := fun _ _ hw => .inl hw
        commitIdx := .inr rfl }

/-- A call that changes no wave. -/
theorem WaveStep.of_sameWaves {c : SchedulerCall} (hinv : WaveInv s) (h : SameWaves s s')
    (hrev : ∀ i, ¬ c.Revalidates i) : WaveStep s c s' :=
  h.lowered.waveStep hinv (h.waveInv hinv).wave_le fun i hi _ => absurd hi (hrev i)

theorem nextTaskIteration_waveStep (hinv : WaveInv s) {r : Option SchedulerTask}
    (h : s.nextTaskIteration = (r, s')) : WaveStep s .nextTask s' := by
  obtain ⟨hn, hvs, hcs, hvi⟩ := nextTaskIteration_waves h
  have hbound : s'.commitBound = s.commitBound := commitBound_congr hcs (by simp [hvs])
  -- the validation index moves up within its wave
  have hwave : s'.validationIdx.2 ≤ s'.commitBound s'.validationIdx.1 := by
    rw [hbound]
    rcases hvi with hvi | hvi <;> rw [hvi]
    · exact hinv.wave_le
    · exact hinv.wave_le.trans (commitBound_mono (Nat.le_succ _))
  have hlow : Lowered s s' :=
    ⟨hn, hcs, by simp [hvs], by simp [hvs], by simp [hvs], by rcases hvi with hvi | hvi <;> simp [hvi]⟩
  exact hlow.waveStep hinv hwave fun _ hrev _ => False.elim hrev

theorem finishValidation_waveStep (hinv : WaveInv s) (txnIdx wave : Nat) :
    WaveStep s (.finishValidation txnIdx wave) (s.finishValidation txnIdx wave) := by
  -- only the validated wave of `txnIdx` changes
  have hmtw : ∀ y, ((s.finishValidation txnIdx wave).validationStatus y).maxTriggeredWave =
      (s.validationStatus y).maxTriggeredWave := fun y => by
    unfold finishValidation
    by_cases hy : y = txnIdx <;> simp [hy]
  have hreq : ∀ y, ((s.finishValidation txnIdx wave).validationStatus y).requiredWave =
      (s.validationStatus y).requiredWave := fun y => by
    unfold finishValidation
    by_cases hy : y = txnIdx <;> simp [hy]
  have hbound : (s.finishValidation txnIdx wave).commitBound = s.commitBound :=
    commitBound_congr rfl hmtw
  refine ⟨⟨hinv.commitIdx_le, ?_, ?_⟩, ⟨rfl, ?_, ?_⟩, fun _ hrev _ => False.elim hrev, ?_, .inl rfl⟩
  · rw [hbound]
    exact hinv.wave_le
  · intro y
    rw [hreq]
    exact hinv.requiredWave_le y
  · intro x
    rw [hbound]
  · intro y
    rw [hreq]
  · intro x w hw
    unfold finishValidation at hw
    by_cases hx : x = txnIdx
    · subst hx
      cases hprev : (s.validationStatus x).maybeMaxValidatedWave with
      | none =>
        simp only [hprev, Function.update_self, Option.elim_none,
          Option.some.injEq] at hw
        exact .inr (by rw [hw])
      | some prev =>
        simp only [hprev, Function.update_self, Option.elim_some,
          Option.some.injEq] at hw
        -- the maximum of two waves is one of them
        rcases max_choice prev wave with hmax | hmax
        · exact .inl (by rw [← hw, hmax])
        · exact .inr (by rw [← hw, hmax])
    · exact .inl (by simpa [hx] using hw)

/-- Handing back a validation task in the current wave: the transaction then requires that wave. -/
theorem Lowered.waveStep_requiredWave {c : SchedulerCall} (h : Lowered s s') (hinv : WaveInv s)
    (hwave : s'.validationIdx.2 ≤ s'.commitBound s'.validationIdx.1) {txnIdx : Nat}
    (hrev : ∀ i, c.Revalidates i → i < s.numTxns → i ≠ txnIdx →
      s'.validationIdx.2 ≤ s'.commitBound i) :
    WaveStep s c { s' with
      validationStatus := Function.update s'.validationStatus txnIdx
        { s'.validationStatus txnIdx with requiredWave := s'.validationIdx.2 } } := by
  have hbound : commitBound { s' with
      validationStatus := Function.update s'.validationStatus txnIdx
        { s'.validationStatus txnIdx with requiredWave := s'.validationIdx.2 } } = s'.commitBound :=
    commitBound_congr rfl fun y => by by_cases hy : y = txnIdx <;> simp [hy]
  -- every other transaction keeps its required wave, below the validation wave
  have hother : ∀ y, y ≠ txnIdx →
      (s.validationStatus y).requiredWave ≤ s'.validationIdx.2 := fun y _ =>
    (hinv.requiredWave_le y).trans h.wave_le
  refine ⟨⟨?_, ?_, ?_⟩, ⟨h.numTxns_eq, ?_, ?_⟩, ?_, ?_, .inl (congrArg Prod.fst h.commitState_eq)⟩
  · show s'.commitState.1 ≤ s'.numTxns
    rw [h.numTxns_eq, h.commitState_eq]
    exact hinv.commitIdx_le
  · rw [hbound]
    exact hwave
  · intro y
    by_cases hy : y = txnIdx
    · simp [hy]
    · simpa [hy, h.requiredWave_eq] using hother y hy
  · intro x
    rw [hbound]
    exact h.commitBound_le x
  · intro y
    by_cases hy : y = txnIdx
    · simpa [hy] using (hinv.requiredWave_le txnIdx).trans h.wave_le
    · simp [hy, h.requiredWave_eq]
  · intro i hi hlt
    by_cases hix : i = txnIdx
    · subst hix
      exact le_max_of_le_right (by simp)
    · unfold revalidationBound
      rw [hbound]
      exact (hrev i hi hlt hix).trans (le_max_left _ _)
  · intro x w hw
    by_cases hx : x = txnIdx
    · subst hx
      exact .inl (by simpa [h.maybeMaxValidatedWave_eq] using hw)
    · exact .inl (by simpa [hx, h.maybeMaxValidatedWave_eq] using hw)

theorem finishExecution_waveStep (hinv : CommitInv s) {txnIdx incarnation : Nat}
    {revalidateSuffix : Bool} {task : SchedulerTask}
    (h : s.finishExecution txnIdx incarnation revalidateSuffix = .ok (task, s')) :
    WaveStep s (.finishExecution txnIdx incarnation revalidateSuffix) s' := by
  obtain ⟨s₁, s₂, h₁, h₂, hs'⟩ := finishExecution_waves h
  have hsame : SameWaves s s₂ :=
    (setExecutedStatus_sameWaves h₁).trans (wakeDependenciesAfterExecution_sameWaves h₂)
  have hinv₂ : WaveInv s₂ := hsame.waveInv hinv.toWaveInv
  -- the transaction was executing (or halted), so it is not below the commit index
  have hcommit : s₂.commitState.1 ≤ txnIdx + 1 := by
    have hle : s.commitState.1 ≤ txnIdx := hinv.commitIdx_le_of_uncommitted fun k hk => by
      rcases setExecutedStatus_eq_ok.mp h₁ with ⟨hst, -⟩ | ⟨_, hst, -⟩ <;> simp [hst] at hk
    rw [hsame.commitState_eq]
    omega
  rcases hs' with ⟨hle, hs'⟩ | ⟨hlt, s₃, hs₃, rfl⟩
  · -- the validation index has not reached the transaction: no wave changes
    rw [hs']
    refine hsame.lowered.waveStep hinv.toWaveInv hinv₂.wave_le fun i hrev _ => ?_
    have hidx : s₂.validationIdx.1 ≤ i := by
      rcases hrev with ⟨hi, -⟩ | rfl <;> omega
    exact (hinv₂.wave_le.trans (commitBound_mono hidx)).trans (le_max_left _ _)
  · -- a validation task in the wave of the (possibly lowered) validation index
    have hlow : Lowered s s₃ ∧ s₃.validationIdx.2 ≤ s₃.commitBound s₃.validationIdx.1 := by
      rcases hs₃ with ⟨-, rfl⟩ | ⟨-, rfl⟩
      · exact ⟨hsame.lowered, hinv₂.wave_le⟩
      · exact ⟨hsame.lowered.trans (decreaseValidationIdx_lowered _),
          decreaseValidationIdx_waveInv hinv₂.wave_le hcommit⟩
    refine hlow.1.waveStep_requiredWave hinv.toWaveInv hlow.2 fun i hrev hi hix => ?_
    -- another transaction is revalidated only with the suffix, from a lowered validation index
    obtain ⟨hidx, hsuffix⟩ : txnIdx < i ∧ revalidateSuffix = true := by
      rcases hrev with h' | rfl
      · exact h'
      · exact absurd rfl hix
    rcases hs₃ with ⟨hfalse, -⟩ | ⟨-, rfl⟩
    · rw [hsuffix] at hfalse
      cases hfalse
    · exact decreaseValidationIdx_wave_le hinv₂.wave_le hcommit i hidx
        (by rw [hsame.numTxns_eq]; omega)

theorem wakeDependenciesAndDecreaseValidationIdx_waveStep (hinv : WaveInv s) {txnIdx : Nat}
    (hcommit : s.commitState.1 ≤ txnIdx + 1)
    (h : s.wakeDependenciesAndDecreaseValidationIdx txnIdx = .ok s') :
    WaveStep s (.wakeDependenciesAndDecreaseValidationIdx txnIdx) s' := by
  obtain ⟨s₁, h₁, rfl⟩ := wakeDependenciesAndDecreaseValidationIdx_eq_ok h
  exact WaveStep.of_decrease hinv hcommit
    ((wakeDependenciesAfterExecution_sameWaves h₁).decreaseValidationIdx _) fun _ hrev => hrev

theorem finishAbort_waveStep (hinv : CommitInv s) {txnIdx incarnation : Nat}
    {task : SchedulerTask} (h : s.finishAbort txnIdx incarnation = .ok (task, s')) :
    WaveStep s (.finishAbort txnIdx incarnation) s' := by
  obtain ⟨s₁, h₁, hs'⟩ := finishAbort_waves h
  -- the transaction was aborting (or halted), so it is not below the commit index
  have hcommit : s.commitState.1 ≤ txnIdx := hinv.commitIdx_le_of_uncommitted fun k hk => by
    rcases setAbortedStatus_eq_ok.mp h₁ with ⟨hst, -⟩ | ⟨hst, -⟩ <;> simp [hst] at hk
  have hs'' : SameWaves (s₁.decreaseValidationIdx (txnIdx + 1)).2 s' := by
    rcases hs' with rfl | ⟨status, rfl⟩
    · exact .refl _
    · exact sameWaves_setExecutionStatus _ _
  exact WaveStep.of_decrease hinv.toWaveInv (by omega)
    (((setAbortedStatus_sameWaves h₁).decreaseValidationIdx _).trans hs'') fun _ hrev => hrev

/-- Every call of the commit contract is a step of the waves. -/
theorem CommitInv.waveStep (hinv : CommitInv s) {c : SchedulerCall} {o : CallOutput}
    (hadm : s.admits c = true) (h : s.call c = .ok (o, s')) : WaveStep s c s' := by
  cases c with
  | tryCommit =>
    obtain ⟨r, hc, -⟩ := call_tryCommit_eq_ok.mp h
    exact tryCommit_waveStep hinv.toWaveInv hc
  | tryAbort i k =>
    obtain ⟨b, hc, -⟩ := call_tryAbort_eq_ok.mp h
    refine WaveStep.of_sameWaves hinv.toWaveInv ?_ fun _ hrev => hrev
    rcases tryAbort_spec hc with ⟨-, rfl⟩ | ⟨-, -, rfl⟩
    · exact .refl _
    · exact sameWaves_setExecutionStatus _ _
  | nextTask =>
    obtain ⟨r, hc, -⟩ := call_nextTask_eq_ok.mp h
    exact nextTaskIteration_waveStep hinv.toWaveInv hc
  | finishValidation i w =>
    obtain ⟨rfl, -⟩ := call_finishValidation_eq_ok.mp h
    exact finishValidation_waveStep hinv.toWaveInv i w
  | finishExecution i k r =>
    obtain ⟨task, hc, -⟩ := call_finishExecution_eq_ok.mp h
    exact finishExecution_waveStep hinv hc
  | wakeDependenciesAndDecreaseValidationIdx i =>
    obtain ⟨hc, -⟩ := call_wakeDependenciesAndDecreaseValidationIdx_eq_ok.mp h
    exact wakeDependenciesAndDecreaseValidationIdx_waveStep hinv.toWaveInv
      (by simpa [admits_wakeDependenciesAndDecreaseValidationIdx] using hadm) hc
  | finishAbort i k =>
    obtain ⟨task, hc, -⟩ := call_finishAbort_eq_ok.mp h
    exact finishAbort_waveStep hinv hc
  | halt => simp [admits_halt] at hadm
  | waitForDependency i d =>
    obtain ⟨r, hc, -⟩ := call_waitForDependency_eq_ok.mp h
    refine WaveStep.of_sameWaves hinv.toWaveInv ?_ fun _ hrev => hrev
    rcases (waitForDependency_spec hc).2.2 with ⟨-, rfl⟩ | ⟨_, _, -, -, rfl⟩ <;>
      exact ⟨rfl, rfl, rfl, rfl⟩

/-- Every call but `halt` keeps the transactions below the commit index committed, and
`try_commit` commits the one it passes. -/
theorem CommitInv.committed_call (hinv : CommitInv s) {c : SchedulerCall} {o : CallOutput}
    (hadm : s.admits c = true) (h : s.call c = .ok (o, s')) :
    ∀ j < s'.commitState.1, ∃ k, s'.executionStatus j = .committed k := by
  -- a committed status stays: only `halt` could move it
  have hkeep : ∀ j k, s.executionStatus j = .committed k → s'.executionStatus j = .committed k := by
    intro j k hj
    have hpath := call_statusSteps h j
    rw [hj] at hpath
    rcases hpath.of_committed with hst | hst
    · exact hst
    · have hhalt := call_halted h (by rw [hj]; simp) hst
      subst hhalt
      simp [admits_halt] at hadm
  rcases (hinv.waveStep hadm h).commitIdx with hidx | rfl
  · intro j hj
    obtain ⟨k, hk⟩ := hinv.committed j (hidx ▸ hj)
    exact ⟨k, hkeep j k hk⟩
  · obtain ⟨r, hc, -⟩ := call_tryCommit_eq_ok.mp h
    rcases tryCommit_cases hc with ⟨-, _, -, rfl⟩ | ⟨k, _, -, -, -, -, -, _, rfl⟩
    · exact hinv.committed
    · intro j hj
      by_cases hjc : j = s.commitState.1
      · exact ⟨k, by simp [hjc]⟩
      · obtain ⟨k', hk'⟩ := hinv.committed j (by simp at hj; omega)
        exact ⟨k', by simp [hjc, hk']⟩

end Steps

/-! ## Runs -/

section Runs

variable {s s' : Scheduler}

theorem CommitInv.init {numTxns : Nat} (hnew : Scheduler.new numTxns = some s) : CommitInv s := by
  unfold Scheduler.new at hnew
  split_ifs at hnew
  cases hnew
  exact ⟨⟨Nat.zero_le _, Nat.zero_le _, fun _ => Nat.zero_le _⟩, fun j hj => absurd hj (Nat.not_lt_zero j)⟩

theorem new_maybeMaxValidatedWave {numTxns : Nat} (hnew : Scheduler.new numTxns = some s)
    (x : Nat) : (s.validationStatus x).maybeMaxValidatedWave = none := by
  unfold Scheduler.new at hnew
  split_ifs at hnew
  cases hnew
  rfl

/-- Split a run at a prefix. -/
theorem runCalls_append {pre post : List SchedulerCall} {outputs : List CallOutput}
    (h : s.runCalls (pre ++ post) = .ok (outputs, s')) :
    ∃ outs₁ outs₂ s₁, s.runCalls pre = .ok (outs₁, s₁) ∧ s₁.runCalls post = .ok (outs₂, s') := by
  induction pre generalizing s outputs with
  | nil => exact ⟨[], outputs, s, rfl, h⟩
  | cons c pre ih =>
    obtain ⟨o, os, s₁, -, h₁, h₂⟩ := runCalls_cons h
    obtain ⟨outs₁, outs₂, s₂, hpre, hpost⟩ := ih h₂
    exact ⟨o :: outs₁, outs₂, s₂, by rw [runCalls_cons_eq, h₁]; simp [hpre], hpost⟩

/-- The calls of a prefix are admitted, and so are the rest from where the prefix ends. -/
theorem admitsRun_append {pre post : List SchedulerCall} {outs : List CallOutput} {s₁ : Scheduler}
    (hadm : s.admitsRun (pre ++ post) = true) (hpre : s.runCalls pre = .ok (outs, s₁)) :
    s.admitsRun pre = true ∧ s₁.admitsRun post = true := by
  induction pre generalizing s outs with
  | nil =>
    simp only [runCalls_nil, Except.ok.injEq, Prod.mk.injEq] at hpre
    obtain ⟨-, rfl⟩ := hpre
    exact ⟨rfl, hadm⟩
  | cons c pre ih =>
    obtain ⟨o, os, s₂, -, h₁, h₂⟩ := runCalls_cons hpre
    simp only [List.cons_append, admitsRun_cons h₁, Bool.and_eq_true] at hadm ⊢
    exact ⟨⟨hadm.1, (ih hadm.2 h₂).1⟩, (ih hadm.2 h₂).2⟩

/-- Along an admitted run the invariant holds, the bounds grow, and every validated wave is old
or recorded by a `finish_validation` of the run. -/
theorem CommitInv.runCalls (hinv : CommitInv s) {calls : List SchedulerCall}
    {outputs : List CallOutput} (hadm : s.admitsRun calls = true)
    (h : s.runCalls calls = .ok (outputs, s')) :
    CommitInv s' ∧ WavesGrow s s' ∧
      ∀ x w, (s'.validationStatus x).maybeMaxValidatedWave = some w →
        (s.validationStatus x).maybeMaxValidatedWave = some w ∨ .finishValidation x w ∈ calls := by
  induction calls generalizing s outputs with
  | nil =>
    simp only [runCalls_nil, Except.ok.injEq, Prod.mk.injEq] at h
    obtain ⟨-, rfl⟩ := h
    exact ⟨hinv, .refl s, fun _ _ hw => .inl hw⟩
  | cons c calls ih =>
    obtain ⟨o, os, s₁, -, h₁, h₂⟩ := runCalls_cons h
    simp only [admitsRun_cons h₁, Bool.and_eq_true] at hadm
    have hstep := hinv.waveStep hadm.1 h₁
    obtain ⟨hinv', hgrow, hval⟩ := ih ⟨hstep.inv, hinv.committed_call hadm.1 h₁⟩ hadm.2 h₂
    refine ⟨hinv', hstep.grows.trans hgrow, fun x w hw => ?_⟩
    rcases hval x w hw with hw₁ | hmem
    · rcases hstep.validated x w hw₁ with hw₀ | rfl
      · exact .inl hw₀
      · exact .inr List.mem_cons_self
    · exact .inr (List.mem_cons_of_mem _ hmem)

/-- A call of an admitted run that revalidates `i` leaves the validation wave within the bound
of `i` at the end of the run. -/
theorem CommitInv.runCalls_revalidated (hinv : CommitInv s) {calls : List SchedulerCall}
    {outputs : List CallOutput} (hadm : s.admitsRun calls = true)
    (h : s.runCalls calls = .ok (outputs, s')) {pre post : List SchedulerCall} {c : SchedulerCall}
    {outs₁ : List CallOutput} {s₁ s₂ : Scheduler} {o : CallOutput} {i : Nat}
    (hsplit : calls = pre ++ c :: post) (hpre : s.runCalls pre = .ok (outs₁, s₁))
    (hc : s₁.call c = .ok (o, s₂)) (hrev : c.Revalidates i) (hi : i < s'.numTxns) :
    s₂.validationIdx.2 ≤ s'.revalidationBound i := by
  subst hsplit
  obtain ⟨_, outs₂, s₃, hpre₃, hpost⟩ := runCalls_append h
  have hs₃ := hpre.symm.trans hpre₃
  simp only [Except.ok.injEq, Prod.mk.injEq] at hs₃
  obtain ⟨-, rfl⟩ := hs₃
  obtain ⟨hadm₁, hadm₂⟩ := admitsRun_append hadm hpre
  have hinv₁ : CommitInv s₁ := (hinv.runCalls hadm₁ hpre).1
  obtain ⟨_, os, s₄, -, hc₄, hpost₄⟩ := runCalls_cons hpost
  have hs₄ := hc.symm.trans hc₄
  simp only [Except.ok.injEq, Prod.mk.injEq] at hs₄
  obtain ⟨-, rfl⟩ := hs₄
  simp only [admitsRun_cons hc, Bool.and_eq_true] at hadm₂
  have hstep := hinv₁.waveStep hadm₂.1 hc
  -- from the call to the end of the run the bounds only grow
  have hgrow : WavesGrow s₂ s' :=
    (CommitInv.runCalls ⟨hstep.inv, hinv₁.committed_call hadm₂.1 hc⟩ hadm₂.2 hpost₄).2.1
  have hi₁ : i < s₁.numTxns := by
    rw [← hstep.grows.numTxns_eq, ← hgrow.numTxns_eq]
    exact hi
  exact (hstep.revalidated i hrev hi₁).trans (hgrow.revalidationBound_le i)

end Runs

/-! ## Commit safety -/

/-- A commit in a run of the commit contract from a fresh scheduler: every transaction below is
committed, the transaction is executed in the committed incarnation, and a `finish_validation` of
the run recorded a wave that is at least the validation wave after every call of the run that
revalidates the transaction. -/
theorem tryCommit_validated {numTxns : Nat} {s₀ s s' : Scheduler} {calls : List SchedulerCall}
    {outputs : List CallOutput} {i k : Nat} (hnew : Scheduler.new numTxns = some s₀)
    (hadm : s₀.admitsRun calls = true) (hrun : s₀.runCalls calls = .ok (outputs, s))
    (hcommit : s.tryCommit = (some (i, k), s')) :
    (∀ j < i, ∃ k', s.executionStatus j = .committed k') ∧ s.executionStatus i = .executed k ∧
      ∃ w, .finishValidation i w ∈ calls ∧
        ∀ pre c post outs₁ s₁ o s₂, calls = pre ++ c :: post → s₀.runCalls pre = .ok (outs₁, s₁) →
          s₁.call c = .ok (o, s₂) → c.Revalidates i → s₂.validationIdx.2 ≤ w := by
  have hinv₀ := CommitInv.init hnew
  obtain ⟨hinv, -, hval⟩ := hinv₀.runCalls hadm hrun
  rcases tryCommit_cases hcommit with ⟨hnone, -⟩ | ⟨k', w, hne, hst, hw, hle, hr, -⟩
  · cases hnone
  · obtain ⟨rfl, rfl⟩ : s.commitState.1 = i ∧ k' = k := by
      simp only [Option.some.injEq, Prod.mk.injEq] at hr
      exact ⟨hr.1.symm, hr.2.symm⟩
    refine ⟨hinv.committed, hst, w, ?_, ?_⟩
    · -- the fresh scheduler has validated nothing
      rcases hval _ _ hw with h₀ | hmem
      · rw [new_maybeMaxValidatedWave hnew] at h₀
        cases h₀
      · exact hmem
    · intro pre c post outs₁ s₁ o s₂ hsplit hpre hc hrev
      have hi : s.commitState.1 < s.numTxns := lt_of_le_of_ne hinv.commitIdx_le hne
      calc s₂.validationIdx.2 ≤ s.revalidationBound s.commitState.1 :=
            hinv₀.runCalls_revalidated hadm hrun hsplit hpre hc hrev hi
        _ = max (max s.commitState.2 (s.validationStatus s.commitState.1).maxTriggeredWave)
              (s.validationStatus s.commitState.1).requiredWave := by
            unfold revalidationBound
            rw [commitBound_commitIdx]
        _ ≤ w := hle

/-- Two transactions.  Both execute and are validated in wave 0; transaction 0 commits and the
executor wakes its dependencies, which starts wave 1 at transaction 1.  Transaction 1 passes its
validation in wave 1, but its validation in wave 0 fails: it is aborted and re-executed as
incarnation 1, and `finish_execution` hands back a validation task in wave 1. -/
def staleValidationRun : List SchedulerCall :=
  [.nextTask, .nextTask, .finishExecution 0 0 false, .finishExecution 1 0 false,
    .nextTask, .nextTask, .finishValidation 0 0, .tryCommit,
    .wakeDependenciesAndDecreaseValidationIdx 0, .nextTask, .finishValidation 1 1,
    .tryAbort 1 0, .finishAbort 1 0, .finishExecution 1 1 false]

/-- What the calls of `staleValidationRun` return. -/
def staleValidationOutputs : List CallOutput :=
  [.task (some (.executionTask 0 0 .execution)), .task (some (.executionTask 1 0 .execution)),
    .task (some .retry), .task (some .retry),
    .task (some (.validationTask 0 0 0)), .task (some (.validationTask 1 0 0)),
    .unit, .committed (some (0, 0)), .unit, .task (some (.validationTask 1 0 1)), .unit,
    .aborted true, .task (some (.executionTask 1 1 .execution)),
    .task (some (.validationTask 1 1 1))]

theorem tryCommit_validated_stale_run :
    ∃ s₀ s s' outputs, Scheduler.new 2 = some s₀ ∧ s₀.admitsRun staleValidationRun = true ∧
      s₀.runCalls staleValidationRun = .ok (outputs, s) ∧ s.tryCommit = (some (1, 1), s') ∧
      (∀ j < 1, ∃ k', s.executionStatus j = .committed k') ∧ s.executionStatus 1 = .executed 1 ∧
      ∃ w, .finishValidation 1 w ∈ staleValidationRun ∧
        ∀ pre c post outs₁ s₁ o s₂, staleValidationRun = pre ++ c :: post →
          s₀.runCalls pre = .ok (outs₁, s₁) → s₁.call c = .ok (o, s₂) → c.Revalidates 1 →
          s₂.validationIdx.2 ≤ w := by
  refine ⟨_, _, _, _, rfl, rfl, rfl, rfl, ?_⟩
  exact @tryCommit_validated 2 _ _ _ _ _ _ _ rfl rfl rfl rfl

/-- In `staleValidationRun`, `try_commit` commits incarnation 1 of transaction 1 on the wave its
incarnation 0 was validated in: the only `finish_validation` of transaction 1 comes before any
validation task of incarnation 1 is handed out. -/
theorem tryCommit_stale_validation :
    ∃ s₀ s s', Scheduler.new 2 = some s₀ ∧
      s₀.runCalls staleValidationRun = .ok (staleValidationOutputs, s) ∧
      s.tryCommit = (some (1, 1), s') ∧
      ∀ p q w : Nat, staleValidationRun[p]? = some (SchedulerCall.finishValidation 1 w) →
        staleValidationOutputs[q]? = some (CallOutput.task (some (.validationTask 1 1 w))) →
        p < q := by
  refine ⟨_, _, _, rfl, rfl, rfl, fun p q w hp hq => ?_⟩
  obtain ⟨hplt, -⟩ := List.getElem?_eq_some_iff.mp hp
  obtain ⟨hqlt, -⟩ := List.getElem?_eq_some_iff.mp hq
  change p < 14 at hplt
  change q < 14 at hqlt
  -- position 10 is the only `finish_validation` of transaction 1, position 13 the only task
  have hp10 : p = 10 := by
    interval_cases p <;> first | rfl | cases hp
  have hq13 : q = 13 := by
    interval_cases q <;> first | rfl | cases hq
  omega

end Scheduler

end CreditChain
