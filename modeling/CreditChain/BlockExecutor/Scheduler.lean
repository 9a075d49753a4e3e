import CreditChain.Aggregator.Types
import CreditChain.Lib.Except
import Mathlib.Logic.Function.Basic

/-!
# The Block-STM scheduler

`Scheduler` of `block-executor/src/scheduler.rs`: for every transaction of a block an
`ExecutionStatus` and a `ValidationStatus`, the lists of transactions waiting on it, the shared
execution and validation indices, the commit state and the done and halted markers.

Each public operation of the scheduler is one function from a state to its result and the next
state; `Scheduler.call` names them by a `SchedulerCall` so that a run of the scheduler is a list of
calls (`runCalls`), in whatever order concurrent workers make them.  `next_task` is a loop whose
passes other workers can interleave with: `nextTaskIteration` is one pass, returning `none` where
the loop goes round again.

A `DependencyCondvar` (an `Arc` of a mutex over a `DependencyStatus` and a condition variable) is the
index of its cell in `condvars`; `wait_for_dependency` allocates the next one.  The `validation_idx`
atomic packs a wave and an index into 64 bits; it is kept unpacked as `(index, wave)`.  The commit
queue and the armed lock that elects a commit coordinator carry no scheduling state and are left
out, as is the `Debug` rendering of statuses in error messages.
-/

namespace CreditChain

/-- `DependencyStatus`: what a transaction waiting on a dependency is woken with. -/
inductive DependencyStatus
  | unresolved
  | resolved
  | executionHalted
  deriving DecidableEq, Repr

/-- `ExecutionTaskType`: a fresh execution, or the wakeup of an execution suspended on the
condition variable it names. -/
inductive ExecutionTaskType
  | execution
  | wakeup (condvar : Nat)
  deriving DecidableEq, Repr

/-- `SchedulerTask`. -/
inductive SchedulerTask
  | executionTask (txnIdx incarnation : Nat) (taskType : ExecutionTaskType)
  | validationTask (txnIdx incarnation wave : Nat)
  | retry
  | done
  deriving DecidableEq, Repr

/-- `ExecutionStatus`, with the latest incarnation of the transaction. -/
inductive ExecutionStatus
  | ready (incarnation : Nat) (taskType : ExecutionTaskType)
  | executing (incarnation : Nat) (taskType : ExecutionTaskType)
  | suspended (incarnation : Nat) (condvar : Nat)
  | executed (incarnation : Nat)
  | committed (incarnation : Nat)
  | aborting (incarnation : Nat)
  | executionHalted
  deriving DecidableEq, Repr

/-- `ValidationStatus`: the waves of the validation algorithm for one transaction. -/
structure ValidationStatus where
  maxTriggeredWave : Nat
  requiredWave : Nat
  maybeMaxValidatedWave : Option Nat
  deriving DecidableEq, Repr

/-- `ValidationStatus::new`. -/
def ValidationStatus.new : ValidationStatus := ⟨0, 0, none⟩

/-- `DependencyResult`, the result of `wait_for_dependency`. -/
inductive DependencyResult
  | dependency (condvar : Nat)
  | resolved
  | executionHalted
  deriving DecidableEq, Repr

/-- `Scheduler`.  `txn_status[i]` is split into `executionStatus i` and `validationStatus i`;
`condvars` and `nextCondvar` are the cells of the dependency condition variables. -/
structure Scheduler where
  numTxns : Nat
  txnDependency : Nat → List Nat
  executionStatus : Nat → ExecutionStatus
  validationStatus : Nat → ValidationStatus
  commitState : Nat × Nat
  executionIdx : Nat
  validationIdx : Nat × Nat
  doneMarker : Bool
  hasHalted : Bool
  condvars : Nat → DependencyStatus
  nextCondvar : Nat

namespace Scheduler

/-- `Scheduler::new`; `none` where its `assert!` fails on an empty block. -/
def new (numTxns : Nat) : Option Scheduler :=
  if numTxns = 0 then none
  else some
    { numTxns
      txnDependency := fun _ => []
      executionStatus := fun _ => .ready 0 .execution
      validationStatus := fun _ => .new
      commitState := (0, 0)
      executionIdx := 0
      validationIdx := (0, 0)
      doneMarker := false
      hasHalted := false
      condvars := fun _ => .unresolved
      nextCondvar := 0 }

/-- The write `*status = ...` under the execution status lock of `txnIdx`. -/
def setExecutionStatus (s : Scheduler) (txnIdx : Nat) (status : ExecutionStatus) : Scheduler :=
  { s with executionStatus := Function.update s.executionStatus txnIdx status }

@[simp] theorem setExecutionStatus_eq (s : Scheduler) (txnIdx : Nat) (status : ExecutionStatus) :
    s.setExecutionStatus txnIdx status =
      { s with executionStatus := Function.update s.executionStatus txnIdx status } := rfl

/-! ## Status transitions under the execution status lock -/

/-- `try_incarnate`: `Ready(i, t)` becomes `Executing(i, t)`. -/
def tryIncarnate (s : Scheduler) (txnIdx : Nat) : Option (Nat × ExecutionTaskType) × Scheduler :=
  if txnIdx ≥ s.numTxns then (none, s)
  else
    match s.executionStatus txnIdx with
    | .ready incarnation taskType =>
      (some (incarnation, taskType), s.setExecutionStatus txnIdx (.executing incarnation taskType))
    | _ => (none, s)

/-- `is_executed`. -/
def isExecuted (s : Scheduler) (txnIdx : Nat) (includeCommitted : Bool) : Option Nat :=
  match s.executionStatus txnIdx with
  | .executed incarnation => some incarnation
  | .committed incarnation => if includeCommitted then some incarnation else none
  | _ => none

/-- `never_executed`: no incarnation has finished executing yet. -/
def neverExecuted (s : Scheduler) (txnIdx : Nat) : Bool :=
  match s.executionStatus txnIdx with
  | .ready 0 _ | .executing 0 _ | .suspended 0 _ => true
  | _ => false

/-- `suspend`. -/
def suspend (s : Scheduler) (txnIdx condvar : Nat) : Except PanicError (Bool × Scheduler) :=
  match s.executionStatus txnIdx with
  | .executing incarnation _ =>
    .ok (true, s.setExecutionStatus txnIdx (.suspended incarnation condvar))
  | .executionHalted => .ok (false, s)
  | _ => .error (codeInvariantError "Unexpected status in suspend")

/-- `resume`. -/
def resume (s : Scheduler) (txnIdx : Nat) : Except PanicError Scheduler :=
  match s.executionStatus txnIdx with
  | .suspended incarnation depCondvar =>
    .ok (s.setExecutionStatus txnIdx (.ready incarnation (.wakeup depCondvar)))
  | .executionHalted => .ok s
  | _ => .error (codeInvariantError "Unexpected status in resume")

/-- `set_executed_status`. -/
def setExecutedStatus (s : Scheduler) (txnIdx incarnation : Nat) : Except PanicError Scheduler :=
  match s.executionStatus txnIdx with
  | .executing storedIncarnation _ =>
    if storedIncarnation = incarnation then
      .ok (s.setExecutionStatus txnIdx (.executed incarnation))
    else .error (codeInvariantError s!"Expected Executing incarnation {incarnation}, got")
  | .executionHalted => .ok s
  | _ => .error (codeInvariantError s!"Expected Executing incarnation {incarnation}, got")

/-- `set_aborted_status`: `Aborting(i)` becomes `Ready(i + 1, Execution)`. -/
def setAbortedStatus (s : Scheduler) (txnIdx incarnation : Nat) : Except PanicError Scheduler :=
  match s.executionStatus txnIdx with
  | .aborting storedIncarnation =>
    if storedIncarnation = incarnation then
      .ok (s.setExecutionStatus txnIdx (.ready (incarnation + 1) .execution))
    else .error (codeInvariantError s!"Expected Aborting incarnation {incarnation}, got")
  | .executionHalted => .ok s
  | _ => .error (codeInvariantError s!"Expected Aborting incarnation {incarnation}, got")

/-- `halt_transaction_execution`: the status becomes `ExecutionHalted`, and a condition variable
it was waiting on is set to `ExecutionHalted`. -/
def haltTransactionExecution (s : Scheduler) (txnIdx : Nat) : Scheduler :=
  let halted := s.setExecutionStatus txnIdx .executionHalted
  match s.executionStatus txnIdx with
  | .suspended _ condvar | .ready _ (.wakeup condvar) | .executing _ (.wakeup condvar) =>
    { halted with condvars := Function.update halted.condvars condvar .executionHalted }
  | _ => halted

/-! ## Validation index -/

/-- `decrease_validation_idx`: lower the validation index to `targetIdx` in a new wave.  The
`assert!` that `targetIdx ≤ numTxns` is not modelled; callers pass `txnIdx + 1`. -/
def decreaseValidationIdx (s : Scheduler) (targetIdx : Nat) : Option Nat × Scheduler :=
  if targetIdx = s.numTxns then (none, s)
  else
    let txnIdx := s.validationIdx.1
    let wave := s.validationIdx.2
    if txnIdx > targetIdx then
      let validationStatus := s.validationStatus targetIdx
      (some (wave + 1),
        { s with
          validationStatus := Function.update s.validationStatus targetIdx
            { validationStatus with
              maxTriggeredWave := max validationStatus.maxTriggeredWave (wave + 1) }
          validationIdx := (targetIdx, wave + 1) })
    else (none, s)

/-- `try_validate_next_version`: claim `idxToValidate` by a compare-and-swap on the validation
index and hand out a validation task if the transaction is executed. -/
def tryValidateNextVersion (s : Scheduler) (idxToValidate wave : Nat) :
    Option (Nat × Nat × Nat) × Scheduler :=
  if s.validationIdx = (idxToValidate, wave) then
    let s := { s with validationIdx := (idxToValidate + 1, wave) }
    ((s.isExecuted idxToValidate false).map fun incarnation => (idxToValidate, incarnation, wave), s)
  else (none, s)

/-- `try_execute_next_version`: claim the execution index by a fetch-and-increment and incarnate
the transaction there. -/
def tryExecuteNextVersion (s : Scheduler) : Option (Nat × Nat × ExecutionTaskType) × Scheduler :=
  let idxToExecute := s.executionIdx
  let s := { s with executionIdx := idxToExecute + 1 }
  if idxToExecute ≥ s.numTxns then (none, s)
  else
    let (incarnated, s) := s.tryIncarnate idxToExecute
    (incarnated.map fun (incarnation, taskType) => (idxToExecute, incarnation, taskType), s)

/-! ## Public operations -/

/-- `try_commit`: commit the next transaction if it is executed and validated in a wave no lower
than the commit wave and its required wave. -/
def tryCommit (s : Scheduler) : Option (Nat × Nat) × Scheduler :=
  let commitIdx := s.commitState.1
  let commitWave := s.commitState.2
  if commitIdx = s.numTxns then (none, s)
  else
    let validationStatus := s.validationStatus commitIdx
    match s.executionStatus commitIdx with
    | .executed incarnation =>
      -- the commit wave is raised even when the transaction cannot commit yet
      let commitWave := max commitWave validationStatus.maxTriggeredWave
      let s := { s with commitState := (commitIdx, commitWave) }
      match validationStatus.maybeMaxValidatedWave with
      | some validatedWave =>
        if validatedWave ≥ max commitWave validationStatus.requiredWave then
          let s := { s.setExecutionStatus commitIdx (.committed incarnation) with
            commitState := (commitIdx + 1, commitWave) }
          let s := if commitIdx + 1 = s.numTxns then { s with doneMarker := true } else s
          (some (commitIdx, incarnation), s)
        else (none, s)
      | none => (none, s)
    | _ => (none, s)

/-- `try_abort`: `Executed(incarnation)` becomes `Aborting(incarnation)`. -/
def tryAbort (s : Scheduler) (txnIdx incarnation : Nat) : Bool × Scheduler :=
  if s.executionStatus txnIdx = .executed incarnation then
    (true, s.setExecutionStatus txnIdx (.aborting incarnation))
  else (false, s)

/-- One pass through the loop of `next_task`; `none` where the loop goes round again. -/
def nextTaskIteration (s : Scheduler) : Option SchedulerTask × Scheduler :=
  if s.doneMarker then (some .done, s)
  else
    let idxToValidate := s.validationIdx.1
    let wave := s.validationIdx.2
    let idxToExecute := s.executionIdx
    let preferValidate :=
      decide (idxToValidate < min idxToExecute s.numTxns) && !s.neverExecuted idxToValidate
    if !preferValidate && idxToExecute ≥ s.numTxns then (some .retry, s)
    else
      let (validated, s) :=
        if preferValidate then s.tryValidateNextVersion idxToValidate wave else (none, s)
      match validated with
      | some (txnIdx, incarnation, wave) => (some (.validationTask txnIdx incarnation wave), s)
      | none =>
        if idxToExecute < s.numTxns then
          let (executed, s) := s.tryExecuteNextVersion
          (executed.map fun (txnIdx, incarnation, taskType) =>
            .executionTask txnIdx incarnation taskType, s)
        else (none, s)

/-- `finish_validation`: record the wave of a successful validation. -/
def finishValidation (s : Scheduler) (txnIdx wave : Nat) : Scheduler :=
  let validationStatus := s.validationStatus txnIdx
  { s with
    validationStatus := Function.update s.validationStatus txnIdx
      { validationStatus with
        maybeMaxValidatedWave :=
          some (validationStatus.maybeMaxValidatedWave.elim wave fun prevWave => max prevWave wave) } }

/-- The loop of `wake_dependencies_after_execution`: resume each dependency in turn, keeping the
least index seen. -/
def resumeDependencies (s : Scheduler) (minDep : Option Nat) :
    List Nat → Except PanicError (Option Nat × Scheduler)
  | [] => .ok (minDep, s)
  | dep :: txnDeps => do
    let s ← s.resume dep
    let minDep := if minDep.isNone || minDep.any (fun m => m > dep) then some dep else minDep
    resumeDependencies s minDep txnDeps

theorem resumeDependencies_nil (s : Scheduler) (minDep : Option Nat) :
    s.resumeDependencies minDep [] = .ok (minDep, s) := rfl

theorem resumeDependencies_cons (s : Scheduler) (minDep : Option Nat) (dep : Nat)
    (txnDeps : List Nat) :
    s.resumeDependencies minDep (dep :: txnDeps) =
      (s.resume dep >>= fun s₁ => s₁.resumeDependencies
        (if minDep.isNone || minDep.any (fun m => m > dep) then some dep else minDep) txnDeps) :=
  rfl

/-- `wake_dependencies_after_execution`: take the dependency list, resume every waiting
transaction and lower the execution index to the least of them. -/
def wakeDependenciesAfterExecution (s : Scheduler) (txnIdx : Nat) : Except PanicError Scheduler := do
  let txnDeps := s.txnDependency txnIdx
  let s := { s with txnDependency := Function.update s.txnDependency txnIdx [] }
  let (minDep, s) ← s.resumeDependencies none txnDeps
  match minDep with
  | some executionTargetIdx => pure { s with executionIdx := min s.executionIdx executionTargetIdx }
  | none => pure s

/-- `finish_execution`: mark the incarnation executed, wake its dependencies, and if the
validation index has passed the transaction, hand back its validation task (in a new wave when
the suffix must be revalidated). -/
def finishExecution (s : Scheduler) (txnIdx incarnation : Nat) (revalidateSuffix : Bool) :
    Except PanicError (SchedulerTask × Scheduler) := do
  let s ← s.setExecutedStatus txnIdx incarnation
  let s ← s.wakeDependenciesAfterExecution txnIdx
  let curValIdx := s.validationIdx.1
  let curWave := s.validationIdx.2
  if curValIdx > txnIdx then
    let (decreasedWave, s) :=
      if revalidateSuffix then s.decreaseValidationIdx (txnIdx + 1) else (none, s)
    let curWave := decreasedWave.getD curWave
    let validationStatus := s.validationStatus txnIdx
    pure (.validationTask txnIdx incarnation curWave,
      { s with
        validationStatus := Function.update s.validationStatus txnIdx
          { validationStatus with requiredWave := curWave } })
  else pure (.retry, s)

/-- `wake_dependencies_and_decrease_validation_idx`. -/
def wakeDependenciesAndDecreaseValidationIdx (s : Scheduler) (txnIdx : Nat) :
    Except PanicError Scheduler := do
  let s ← s.wakeDependenciesAfterExecution txnIdx
  pure (s.decreaseValidationIdx (txnIdx + 1)).2

/-- `finish_abort`: the next incarnation becomes ready, higher transactions are revalidated, and
if the execution index has passed the transaction its re-execution is handed back. -/
def finishAbort (s : Scheduler) (txnIdx incarnation : Nat) :
    Except PanicError (SchedulerTask × Scheduler) := do
  let s ← s.setAbortedStatus txnIdx incarnation
  let s := (s.decreaseValidationIdx (txnIdx + 1)).2
  if s.executionIdx > txnIdx then
    match s.tryIncarnate txnIdx with
    | (some (newIncarnation, taskType), s) =>
      pure (.executionTask txnIdx newIncarnation taskType, s)
    | (none, s) => pure (.retry, s)
  else pure (.retry, s)

/-- `halt`: the first call halts every transaction; the result says whether this call is the
first to set `has_halted`. -/
def halt (s : Scheduler) : Bool × Scheduler :=
  let wasDone := s.doneMarker
  let s := { s with doneMarker := true }
  let s := if !wasDone then (List.range s.numTxns).foldl haltTransactionExecution s else s
  (!s.hasHalted, { s with hasHalted := true })

/-- `wait_for_dependency`: suspend `txnIdx` on a fresh condition variable and add it to the
dependencies of `depTxnIdx`, unless that one is already executed or execution has halted. -/
def waitForDependency (s : Scheduler) (txnIdx depTxnIdx : Nat) :
    Except PanicError (DependencyResult × Scheduler) := do
  if txnIdx ≤ depTxnIdx ∨ depTxnIdx ≥ s.numTxns then
    throw (codeInvariantError
      "In wait_for_dependency: \x7btxn_idx\x7d > \x7bdep_txn_idx\x7d, num txns = \x7bself.num_txns\x7d")
  let depCondvar := s.nextCondvar
  let s := { s with
    condvars := Function.update s.condvars depCondvar .unresolved
    nextCondvar := depCondvar + 1 }
  if (s.isExecuted depTxnIdx true).isSome then return (.resolved, s)
  let (suspended, s) ← s.suspend txnIdx depCondvar
  if !suspended then return (.executionHalted, s)
  return (.dependency depCondvar,
    { s with txnDependency :=
        Function.update s.txnDependency depTxnIdx (s.txnDependency depTxnIdx ++ [txnIdx]) })

/-! ## Runs -/

/-- The atomic operations of the scheduler, as concurrent workers call them. -/
inductive SchedulerCall
  | tryCommit
  | tryAbort (txnIdx incarnation : Nat)
  | nextTask
  | finishValidation (txnIdx wave : Nat)
  | finishExecution (txnIdx incarnation : Nat) (revalidateSuffix : Bool)
  | wakeDependenciesAndDecreaseValidationIdx (txnIdx : Nat)
  | finishAbort (txnIdx incarnation : Nat)
  | halt
  | waitForDependency (txnIdx depTxnIdx : Nat)
  deriving DecidableEq, Repr

/-- What a call returns. -/
inductive CallOutput
  | committed (result : Option (Nat × Nat))
  | aborted (result : Bool)
  | task (result : Option SchedulerTask)
  | unit
  | halted (result : Bool)
  | dependency (result : DependencyResult)
  deriving DecidableEq, Repr

/-- One atomic call. -/
def call (s : Scheduler) : SchedulerCall → Except PanicError (CallOutput × Scheduler)
  | .tryCommit => let (result, s) := s.tryCommit; .ok (.committed result, s)
  | .tryAbort txnIdx incarnation =>
    let (result, s) := s.tryAbort txnIdx incarnation; .ok (.aborted result, s)
  | .nextTask => let (result, s) := s.nextTaskIteration; .ok (.task result, s)
  | .finishValidation txnIdx wave => .ok (.unit, s.finishValidation txnIdx wave)
  | .finishExecution txnIdx incarnation revalidateSuffix =>
    (s.finishExecution txnIdx incarnation revalidateSuffix).map fun (task, s) => (.task (some task), s)
  | .wakeDependenciesAndDecreaseValidationIdx txnIdx =>
    (s.wakeDependenciesAndDecreaseValidationIdx txnIdx).map fun s => (.unit, s)
  | .finishAbort txnIdx incarnation =>
    (s.finishAbort txnIdx incarnation).map fun (task, s) => (.task (some task), s)
  | .halt => let (result, s) := s.halt; .ok (.halted result, s)
  | .waitForDependency txnIdx depTxnIdx =>
    (s.waitForDependency txnIdx depTxnIdx).map fun (result, s) => (.dependency result, s)

/-- A sequence of atomic calls, stopping at the first error. -/
def runCalls (s : Scheduler) : List SchedulerCall → Except PanicError (List CallOutput × Scheduler)
  | [] => .ok ([], s)
  | c :: calls => do
    let (output, s) ← s.call c
    let (outputs, s) ← s.runCalls calls
    pure (output :: outputs, s)

theorem runCalls_nil (s : Scheduler) : s.runCalls [] = .ok ([], s) := rfl

theorem runCalls_cons_eq (s : Scheduler) (c : SchedulerCall) (calls : List SchedulerCall) :
    s.runCalls (c :: calls) = (do
      let (output, s) ← s.call c
      let (outputs, s) ← s.runCalls calls
      pure (output :: outputs, s)) := rfl

end Scheduler

end CreditChain

namespace CreditChain

/-- The status `resume` leaves: a suspended execution becomes ready to be woken up. -/
def ExecutionStatus.resumed : ExecutionStatus → ExecutionStatus
  | .suspended incarnation condvar => .ready incarnation (.wakeup condvar)
  | status => status

@[simp] theorem ExecutionStatus.resumed_suspended (incarnation condvar : Nat) :
    (ExecutionStatus.suspended incarnation condvar).resumed = .ready incarnation (.wakeup condvar) :=
  rfl

@[simp] theorem ExecutionStatus.resumed_executionHalted :
    ExecutionStatus.executionHalted.resumed = .executionHalted := rfl

namespace Scheduler

/-! ## Specifications

One lemma per operation says all a call can do: the state it leaves, as an update of the fields it
writes, and what it returns.  Later proofs take calls apart with these and never unfold them. -/

section Specs

variable {s s' : Scheduler}

theorem tryIncarnate_spec {txnIdx : Nat} {r : Option (Nat × ExecutionTaskType)}
    (h : s.tryIncarnate txnIdx = (r, s')) :
    (r = none ∧ s' = s) ∨
      ∃ k t, txnIdx < s.numTxns ∧ s.executionStatus txnIdx = .ready k t ∧ r = some (k, t) ∧
        s' = s.setExecutionStatus txnIdx (.executing k t) := by
  unfold tryIncarnate at h
  split_ifs at h with hlt
  · simp only [Prod.mk.injEq] at h
    exact .inl ⟨h.1.symm, h.2.symm⟩
  · split at h
    · rename_i k t hst
      simp only [Prod.mk.injEq] at h
      exact .inr ⟨k, t, by omega, hst, h.1.symm, h.2.symm⟩
    · simp only [Prod.mk.injEq] at h
      exact .inl ⟨h.1.symm, h.2.symm⟩

theorem suspend_eq_ok {txnIdx condvar : Nat} {b : Bool} :
    s.suspend txnIdx condvar = .ok (b, s') ↔
      (s.executionStatus txnIdx = .executionHalted ∧ b = false ∧ s' = s) ∨
        ∃ k t, s.executionStatus txnIdx = .executing k t ∧ b = true ∧
          s' = s.setExecutionStatus txnIdx (.suspended k condvar) := by
  unfold suspend
  cases s.executionStatus txnIdx <;> simp [eq_comm]

theorem resume_eq_ok {txnIdx : Nat} :
    s.resume txnIdx = .ok s' ↔
      (s.executionStatus txnIdx = .executionHalted ∧ s' = s) ∨
        ∃ k condvar, s.executionStatus txnIdx = .suspended k condvar ∧
          s' = s.setExecutionStatus txnIdx (.ready k (.wakeup condvar)) := by
  unfold resume
  cases s.executionStatus txnIdx <;> simp [eq_comm]

theorem setExecutedStatus_eq_ok {txnIdx incarnation : Nat} :
    s.setExecutedStatus txnIdx incarnation = .ok s' ↔
      (s.executionStatus txnIdx = .executionHalted ∧ s' = s) ∨
        ∃ t, s.executionStatus txnIdx = .executing incarnation t ∧
          s' = s.setExecutionStatus txnIdx (.executed incarnation) := by
  unfold setExecutedStatus
  cases s.executionStatus txnIdx with
  | executing k t =>
    by_cases hk : k = incarnation
    · subst hk; simp [eq_comm]
    · simp [hk]
  | _ => simp [eq_comm]

theorem setAbortedStatus_eq_ok {txnIdx incarnation : Nat} :
    s.setAbortedStatus txnIdx incarnation = .ok s' ↔
      (s.executionStatus txnIdx = .executionHalted ∧ s' = s) ∨
        (s.executionStatus txnIdx = .aborting incarnation ∧
          s' = s.setExecutionStatus txnIdx (.ready (incarnation + 1) .execution)) := by
  unfold setAbortedStatus
  cases s.executionStatus txnIdx with
  | aborting k =>
    by_cases hk : k = incarnation
    · subst hk; simp [eq_comm]
    · simp [hk]
  | _ => simp [eq_comm]

theorem haltTransactionExecution_eq (txnIdx : Nat) :
    ∃ condvars, s.haltTransactionExecution txnIdx =
      { s with
        executionStatus := Function.update s.executionStatus txnIdx .executionHalted
        condvars } := by
  unfold haltTransactionExecution
  split <;> exact ⟨_, rfl⟩

theorem foldl_haltTransactionExecution (l : List Nat) (s : Scheduler) :
    ∃ condvars, l.foldl haltTransactionExecution s =
      { s with
        executionStatus := fun j => if j ∈ l then .executionHalted else s.executionStatus j
        condvars } := by
  induction l generalizing s with
  | nil => exact ⟨s.condvars, by simp⟩
  | cons a l ih =>
    obtain ⟨condvars₁, h₁⟩ := haltTransactionExecution_eq (s := s) a
    obtain ⟨condvars₂, h₂⟩ := ih (s.haltTransactionExecution a)
    refine ⟨condvars₂, ?_⟩
    rw [List.foldl_cons, h₂, h₁]
    congr 1
    funext j
    by_cases hj : j = a
    · simp [hj]
    · by_cases hl : j ∈ l <;> simp [hj, hl]

/-- A `halt` after the done marker is set halts no transaction. -/
theorem halt_of_doneMarker (hdone : s.doneMarker = true) :
    s.halt = (!s.hasHalted, { s with doneMarker := true, hasHalted := true }) := by
  delta halt
  simp [hdone]

/-- The first `halt` halts every transaction of the block. -/
theorem halt_of_not_doneMarker (hdone : s.doneMarker = false) :
    ∃ condvars, s.halt =
      (!s.hasHalted,
        { s with
          executionStatus := fun j => if j < s.numTxns then .executionHalted else s.executionStatus j
          condvars
          doneMarker := true
          hasHalted := true }) := by
  obtain ⟨condvars, h⟩ := foldl_haltTransactionExecution (List.range s.numTxns)
    { s with doneMarker := true }
  refine ⟨condvars, ?_⟩
  delta halt
  simp only [hdone, Bool.not_false, ↓reduceIte, h, List.mem_range]

theorem decreaseValidationIdx_eq (targetIdx : Nat) :
    ∃ validationStatus validationIdx,
      (s.decreaseValidationIdx targetIdx).2 = { s with validationStatus, validationIdx } := by
  unfold decreaseValidationIdx
  dsimp only
  split_ifs <;> exact ⟨_, _, rfl⟩

theorem tryValidateNextVersion_spec {idxToValidate wave : Nat} {r : Option (Nat × Nat × Nat)}
    (h : s.tryValidateNextVersion idxToValidate wave = (r, s')) :
    (∃ validationIdx, s' = { s with validationIdx }) ∧
      ∀ task, r = some task → ∃ k, task = (idxToValidate, k, wave) ∧
        s.executionStatus idxToValidate = .executed k := by
  unfold tryValidateNextVersion at h
  split_ifs at h
  · simp only [Prod.mk.injEq] at h
    obtain ⟨rfl, rfl⟩ := h
    refine ⟨⟨_, rfl⟩, fun task htask => ?_⟩
    unfold isExecuted at htask
    simp only [Option.map_eq_some_iff] at htask
    obtain ⟨k, hk, rfl⟩ := htask
    split at hk
    · rename_i hst
      exact ⟨_, by simp only [Option.some.injEq] at hk; rw [hk], hst⟩
    · simp at hk
    · simp at hk
  · simp only [Prod.mk.injEq] at h
    obtain ⟨rfl, rfl⟩ := h
    exact ⟨⟨s.validationIdx, rfl⟩, fun _ h => by cases h⟩

theorem tryExecuteNextVersion_spec {r : Option (Nat × Nat × ExecutionTaskType)}
    (h : s.tryExecuteNextVersion = (r, s')) :
    ∃ executionIdx,
      (r = none ∧ s' = { s with executionIdx }) ∨
        ∃ i k t, i < s.numTxns ∧ s.executionStatus i = .ready k t ∧ r = some (i, k, t) ∧
          s' = { s with
            executionIdx
            executionStatus := Function.update s.executionStatus i (.executing k t) } := by
  unfold tryExecuteNextVersion at h
  dsimp only at h
  refine ⟨s.executionIdx + 1, ?_⟩
  split at h
  · simp only [Prod.mk.injEq] at h
    exact .inl ⟨h.1.symm, h.2.symm⟩
  · rename_i hlt
    rcases hinc : tryIncarnate { s with executionIdx := s.executionIdx + 1 } s.executionIdx
      with ⟨incarnated, s₁⟩
    rw [hinc] at h
    simp only [Prod.mk.injEq] at h
    obtain ⟨rfl, rfl⟩ := h
    rcases tryIncarnate_spec hinc with ⟨rfl, rfl⟩ | ⟨k, t, -, hst, rfl, rfl⟩
    · exact .inl ⟨rfl, rfl⟩
    · exact .inr ⟨_, k, t, by omega, hst, rfl, rfl⟩

/-- The execution pass of `next_task`, once the validation pass handed out nothing. -/
theorem nextTaskIteration_execution_spec {idxToExecute : Nat} {r : Option SchedulerTask}
    (h : (if idxToExecute < s.numTxns then
            match s.tryExecuteNextVersion with
            | (executed, s) =>
              (executed.map fun (txnIdx, incarnation, taskType) =>
                SchedulerTask.executionTask txnIdx incarnation taskType, s)
          else (none, s)) = (r, s')) :
    ∃ executionIdx,
      (r = none ∧ s' = { s with executionIdx }) ∨
        ∃ i k t, i < s.numTxns ∧ s.executionStatus i = .ready k t ∧
          r = some (.executionTask i k t) ∧
          s' = { s with
            executionIdx
            executionStatus := Function.update s.executionStatus i (.executing k t) } := by
  split at h
  · rcases hex : s.tryExecuteNextVersion with ⟨executed, s₁⟩
    rw [hex] at h
    simp only [Prod.mk.injEq] at h
    obtain ⟨rfl, rfl⟩ := h
    obtain ⟨executionIdx, ⟨rfl, rfl⟩ | ⟨i, k, t, hlt, hst, rfl, rfl⟩⟩ :=
      tryExecuteNextVersion_spec hex
    · exact ⟨executionIdx, .inl ⟨rfl, rfl⟩⟩
    · exact ⟨executionIdx, .inr ⟨i, k, t, hlt, hst, rfl, rfl⟩⟩
  · simp only [Prod.mk.injEq] at h
    obtain ⟨rfl, rfl⟩ := h
    exact ⟨s.executionIdx, .inl ⟨rfl, rfl⟩⟩

/-- How one pass of `next_task` ends: with `done` or `retry`, with the task the validation pass
hands out, or with the execution pass, run on the state the validation pass left when it handed
out nothing or did not run. -/
theorem nextTaskIteration_cases {r : Option SchedulerTask} (h : s.nextTaskIteration = (r, s')) :
    (r = some .done ∧ s' = s) ∨ (r = some .retry ∧ s' = s) ∨
      (s.validationIdx.1 < min s.executionIdx s.numTxns ∧ ∃ i k wave,
        s.tryValidateNextVersion s.validationIdx.1 s.validationIdx.2 = (some (i, k, wave), s') ∧
        r = some (.validationTask i k wave)) ∨
      ∃ s₁, (s₁ = s ∨ s.tryValidateNextVersion s.validationIdx.1 s.validationIdx.2 = (none, s₁)) ∧
        ∃ executionIdx,
          (r = none ∧ s' = { s₁ with executionIdx }) ∨
            ∃ i k t, i < s₁.numTxns ∧ s₁.executionStatus i = .ready k t ∧
              r = some (.executionTask i k t) ∧
              s' = { s₁ with
                executionIdx
                executionStatus := Function.update s₁.executionStatus i (.executing k t) } := by
  unfold nextTaskIteration at h
  dsimp only at h
  split at h
  · simp only [Prod.mk.injEq] at h
    exact .inl ⟨h.1.symm, h.2.symm⟩
  split at h
  · simp only [Prod.mk.injEq] at h
    exact .inr (.inl ⟨h.1.symm, h.2.symm⟩)
  -- the validation pass runs when it is preferred; the execution pass when it hands out nothing
  cases hpv : (decide (s.validationIdx.1 < min s.executionIdx s.numTxns) &&
      !s.neverExecuted s.validationIdx.1)
  · simp only [hpv, Bool.false_eq_true, ↓reduceIte] at h
    exact .inr (.inr (.inr ⟨s, .inl rfl, nextTaskIteration_execution_spec h⟩))
  · simp only [hpv, ↓reduceIte] at h
    rcases hv : s.tryValidateNextVersion s.validationIdx.1 s.validationIdx.2 with ⟨validated, s₁⟩
    rw [hv] at h
    cases validated with
    | some task =>
      obtain ⟨i, k, wave⟩ := task
      simp only [Prod.mk.injEq] at h
      obtain ⟨rfl, rfl⟩ := h
      simp only [Bool.and_eq_true, decide_eq_true_eq] at hpv
      exact .inr (.inr (.inl ⟨hpv.1, i, k, wave, rfl, rfl⟩))
    | none => exact .inr (.inr (.inr ⟨s₁, .inr rfl, nextTaskIteration_execution_spec h⟩))

theorem nextTaskIteration_spec {r : Option SchedulerTask} (h : s.nextTaskIteration = (r, s')) :
    ∃ validationIdx executionIdx,
      ((∀ i k t, r ≠ some (.executionTask i k t)) ∧ s' = { s with validationIdx, executionIdx }) ∨
        ∃ i k t, i < s.numTxns ∧ s.executionStatus i = .ready k t ∧
          r = some (.executionTask i k t) ∧
          s' = { s with
            validationIdx
            executionIdx
            executionStatus := Function.update s.executionStatus i (.executing k t) } := by
  rcases nextTaskIteration_cases h with ⟨rfl, hs⟩ | ⟨rfl, hs⟩ | ⟨-, i, k, wave, hv, rfl⟩ |
      ⟨s₁, hs₁, executionIdx, hexec⟩
  · subst s'
    exact ⟨s.validationIdx, s.executionIdx, .inl ⟨by simp, rfl⟩⟩
  · subst s'
    exact ⟨s.validationIdx, s.executionIdx, .inl ⟨by simp, rfl⟩⟩
  · obtain ⟨⟨validationIdx, rfl⟩, -⟩ := tryValidateNextVersion_spec hv
    exact ⟨validationIdx, s.executionIdx, .inl ⟨by simp, rfl⟩⟩
  · -- the validation pass moves only the validation index; the execution pass follows it
    obtain ⟨validationIdx, rfl⟩ : ∃ validationIdx, s₁ = { s with validationIdx } := by
      rcases hs₁ with hs | hv
      · exact ⟨s.validationIdx, hs⟩
      · exact (tryValidateNextVersion_spec hv).1
    rcases hexec with ⟨rfl, rfl⟩ | h'
    · exact ⟨validationIdx, executionIdx, .inl ⟨by simp, rfl⟩⟩
    · exact ⟨validationIdx, executionIdx, .inr h'⟩

/-- A validation task names an executed incarnation below the execution index, at the wave of the
validation index. -/
theorem nextTaskIteration_validationTask {r : Option SchedulerTask}
    (h : s.nextTaskIteration = (r, s')) {i k wave : Nat} (hr : r = some (.validationTask i k wave)) :
    i < s.numTxns ∧ s.executionStatus i = .executed k ∧ s.validationIdx = (i, wave) := by
  subst hr
  rcases nextTaskIteration_cases h with ⟨hr, -⟩ | ⟨hr, -⟩ | ⟨hlt, i', k', wave', hv, hr⟩ |
      ⟨_, -, _, ⟨hr, -⟩ | ⟨_, _, _, -, -, hr, -⟩⟩
  · cases hr
  · cases hr
  · simp only [Option.some.injEq, SchedulerTask.validationTask.injEq] at hr
    obtain ⟨rfl, rfl, rfl⟩ := hr
    -- the validation pass hands out the executed incarnation at the validation index
    obtain ⟨k'', htask, hst⟩ := (tryValidateNextVersion_spec hv).2 _ rfl
    simp only [Prod.mk.injEq] at htask
    obtain ⟨rfl, rfl, rfl⟩ := htask
    exact ⟨by omega, hst, rfl⟩
  · cases hr
  · cases hr

theorem tryAbort_spec {txnIdx incarnation : Nat} {b : Bool}
    (h : s.tryAbort txnIdx incarnation = (b, s')) :
    (b = false ∧ s' = s) ∨
      (b = true ∧ s.executionStatus txnIdx = .executed incarnation ∧
        s' = s.setExecutionStatus txnIdx (.aborting incarnation)) := by
  unfold tryAbort at h
  split_ifs at h with hst <;> simp only [Prod.mk.injEq] at h <;> obtain ⟨rfl, rfl⟩ := h
  · exact .inr ⟨rfl, hst, rfl⟩
  · exact .inl ⟨rfl, rfl⟩

theorem tryCommit_spec {r : Option (Nat × Nat)} (h : s.tryCommit = (r, s')) :
    (r = none ∧ ∃ commitState, s' = { s with commitState }) ∨
      ∃ k, s.commitState.1 ≠ s.numTxns ∧ s.executionStatus s.commitState.1 = .executed k ∧
        r = some (s.commitState.1, k) ∧
        ∃ commitState doneMarker, s' =
          { s with
            executionStatus := Function.update s.executionStatus s.commitState.1 (.committed k)
            commitState
            doneMarker } := by
  unfold tryCommit at h
  dsimp only at h
  split at h
  · simp only [Prod.mk.injEq] at h
    exact .inl ⟨h.1.symm, s.commitState, by rw [← h.2]⟩
  rename_i hne
  split at h
  · rename_i k hst
    split at h
    · split at h
      · simp only [Prod.mk.injEq] at h
        obtain ⟨rfl, rfl⟩ := h
        refine .inr ⟨k, hne, hst, rfl, ?_⟩
        split_ifs
        · exact ⟨_, true, rfl⟩
        · exact ⟨_, s.doneMarker, rfl⟩
      · simp only [Prod.mk.injEq] at h
        exact .inl ⟨h.1.symm, _, h.2.symm⟩
    · simp only [Prod.mk.injEq] at h
      exact .inl ⟨h.1.symm, _, h.2.symm⟩
  · simp only [Prod.mk.injEq] at h
    exact .inl ⟨h.1.symm, s.commitState, by rw [← h.2]⟩

theorem finishValidation_eq (txnIdx wave : Nat) :
    ∃ validationStatus, s.finishValidation txnIdx wave = { s with validationStatus } :=
  ⟨_, rfl⟩

/-- `resume` on a suspended or halted transaction leaves its `resumed` status. -/
theorem resume_eq_ok_resumed {txnIdx : Nat}
    (hst : (∃ k condvar, s.executionStatus txnIdx = .suspended k condvar) ∨
      s.executionStatus txnIdx = .executionHalted) :
    s.resume txnIdx = .ok { s with
      executionStatus :=
        Function.update s.executionStatus txnIdx (s.executionStatus txnIdx).resumed } := by
  rcases hst with ⟨k, condvar, hst⟩ | hst
  · unfold resume
    rw [hst, ExecutionStatus.resumed_suspended]
    rfl
  · unfold resume
    rw [hst, ExecutionStatus.resumed_executionHalted]
    dsimp only
    rw [← hst, Function.update_eq_self]

theorem resumeDependencies_spec {minDep m : Option Nat} {deps : List Nat}
    (h : s.resumeDependencies minDep deps = .ok (m, s')) :
    ∃ executionStatus, s' = { s with executionStatus } ∧
      ∀ j, executionStatus j = s.executionStatus j ∨
        (j ∈ deps ∧ ∃ k condvar, s.executionStatus j = .suspended k condvar ∧
          executionStatus j = .ready k (.wakeup condvar)) := by
  induction deps generalizing s minDep with
  | nil =>
    rw [resumeDependencies_nil, Except.ok.injEq, Prod.mk.injEq] at h
    obtain ⟨-, rfl⟩ := h
    exact ⟨s.executionStatus, rfl, fun _ => .inl rfl⟩
  | cons dep deps ih =>
    rw [resumeDependencies_cons] at h
    obtain ⟨s₁, h₁, h₂⟩ := Except.bind_eq_ok.mp h
    obtain ⟨executionStatus, rfl, hes⟩ := ih h₂
    rcases Iff.mp resume_eq_ok h₁ with ⟨-, rfl⟩ | ⟨k, condvar, hst, rfl⟩
    · refine ⟨executionStatus, rfl, fun j => ?_⟩
      rcases hes j with hj | ⟨hj, hrest⟩
      · exact .inl hj
      · exact .inr ⟨List.mem_cons_of_mem _ hj, hrest⟩
    · refine ⟨executionStatus, rfl, fun j => ?_⟩
      by_cases hjd : j = dep
      · -- a transaction resumed twice fails the second `resume`, so `dep` is resumed once
        subst hjd
        rcases hes j with hj | ⟨-, k', condvar', hsus, -⟩
        · exact .inr ⟨List.mem_cons_self .., k, condvar, hst, by simpa using hj⟩
        · simp at hsus
      · rcases hes j with hj | ⟨hj, k', condvar', hsus, hres⟩
        · exact .inl (by simpa [hjd] using hj)
        · exact .inr ⟨List.mem_cons_of_mem _ hj, k', condvar', by simpa [hjd] using hsus, hres⟩

/-- Resuming distinct suspended or halted transactions succeeds, leaving each `resumed`. -/
theorem resumeDependencies_ok {minDep : Option Nat} {deps : List Nat} (hnodup : deps.Nodup)
    (hdeps : ∀ j ∈ deps, (∃ k condvar, s.executionStatus j = .suspended k condvar) ∨
      s.executionStatus j = .executionHalted) :
    ∃ m, s.resumeDependencies minDep deps = .ok (m,
      { s with executionStatus := fun j =>
          if j ∈ deps then (s.executionStatus j).resumed else s.executionStatus j }) := by
  induction deps generalizing s minDep with
  | nil => exact ⟨minDep, by simp [resumeDependencies_nil]⟩
  | cons dep deps ih =>
    rw [List.nodup_cons] at hnodup
    set s₁ : Scheduler := { s with
      executionStatus :=
        Function.update s.executionStatus dep (s.executionStatus dep).resumed } with hs₁
    have hother : ∀ j ∈ deps, s₁.executionStatus j = s.executionStatus j := fun j hj => by
      have hjd : j ≠ dep := fun h => hnodup.1 (h ▸ hj)
      simp [hs₁, hjd]
    obtain ⟨m, hm⟩ : ∃ m, s₁.resumeDependencies
        (if minDep.isNone || minDep.any (fun m => m > dep) then some dep else minDep) deps =
        .ok (m, { s₁ with executionStatus := fun j =>
          if j ∈ deps then (s₁.executionStatus j).resumed else s₁.executionStatus j }) :=
      ih hnodup.2 (fun j hj => by rw [hother j hj]; exact hdeps j (List.mem_cons_of_mem _ hj))
    refine ⟨m, ?_⟩
    simp only [resumeDependencies_cons, resume_eq_ok_resumed (hdeps dep (List.mem_cons_self ..)),
      Except.ok_bind]
    rw [← hs₁, hm]
    congr 3
    funext j
    by_cases hjd : j = dep
    · subst hjd
      simp [hs₁, hnodup.1]
    · by_cases hj : j ∈ deps <;> simp [hs₁, hjd, hj]

theorem wakeDependenciesAfterExecution_spec {txnIdx : Nat}
    (h : s.wakeDependenciesAfterExecution txnIdx = .ok s') :
    ∃ executionStatus executionIdx,
      s' = { s with
        txnDependency := Function.update s.txnDependency txnIdx []
        executionStatus
        executionIdx } ∧
      ∀ j, executionStatus j = s.executionStatus j ∨
        (j ∈ s.txnDependency txnIdx ∧ ∃ k condvar, s.executionStatus j = .suspended k condvar ∧
          executionStatus j = .ready k (.wakeup condvar)) := by
  unfold wakeDependenciesAfterExecution at h
  obtain ⟨⟨minDep, s₁⟩, h₁, h₂⟩ := Except.bind_eq_ok.mp h
  obtain ⟨executionStatus, rfl, hes⟩ := resumeDependencies_spec h₁
  refine ⟨executionStatus, ?_, ?_, hes⟩
  cases minDep with
  | some target => exact min s.executionIdx target
  | none => exact s.executionIdx
  cases minDep <;> simpa [eq_comm] using h₂

/-- With distinct suspended or halted dependencies, waking them succeeds. -/
theorem wakeDependenciesAfterExecution_ok {txnIdx : Nat} (hnodup : (s.txnDependency txnIdx).Nodup)
    (hdeps : ∀ j ∈ s.txnDependency txnIdx,
      (∃ k condvar, s.executionStatus j = .suspended k condvar) ∨
        s.executionStatus j = .executionHalted) :
    ∃ executionIdx, s.wakeDependenciesAfterExecution txnIdx = .ok
      { s with
        txnDependency := Function.update s.txnDependency txnIdx []
        executionStatus := fun j =>
          if j ∈ s.txnDependency txnIdx then (s.executionStatus j).resumed else s.executionStatus j
        executionIdx } := by
  let s₁ : Scheduler := { s with txnDependency := Function.update s.txnDependency txnIdx [] }
  obtain ⟨m, hm⟩ : ∃ m, s₁.resumeDependencies none (s.txnDependency txnIdx) =
      .ok (m, { s₁ with executionStatus := fun j =>
        if j ∈ s.txnDependency txnIdx then (s₁.executionStatus j).resumed
        else s₁.executionStatus j }) :=
    resumeDependencies_ok hnodup hdeps
  unfold wakeDependenciesAfterExecution
  dsimp only
  rw [hm]
  cases m with
  | some target => exact ⟨min s.executionIdx target, rfl⟩
  | none => exact ⟨s.executionIdx, rfl⟩

theorem finishExecution_spec {txnIdx incarnation : Nat} {revalidateSuffix : Bool}
    {task : SchedulerTask}
    (h : s.finishExecution txnIdx incarnation revalidateSuffix = .ok (task, s')) :
    ∃ s₁ s₂, s.setExecutedStatus txnIdx incarnation = .ok s₁ ∧
      s₁.wakeDependenciesAfterExecution txnIdx = .ok s₂ ∧
      (∃ validationStatus validationIdx, s' = { s₂ with validationStatus, validationIdx }) ∧
      (task = .retry ∨ ∃ wave, task = .validationTask txnIdx incarnation wave) := by
  unfold finishExecution at h
  obtain ⟨s₁, h₁, h⟩ := Except.bind_eq_ok.mp h
  obtain ⟨s₂, h₂, h⟩ := Except.bind_eq_ok.mp h
  refine ⟨s₁, s₂, h₁, h₂, ?_⟩
  dsimp only at h
  split at h
  · rcases hdec : (if revalidateSuffix then s₂.decreaseValidationIdx (txnIdx + 1) else (none, s₂))
      with ⟨decreasedWave, s₃⟩
    have hs₃ : ∃ validationStatus validationIdx, s₃ = { s₂ with validationStatus, validationIdx } := by
      split at hdec
      · obtain ⟨vs, vi, hdec'⟩ := decreaseValidationIdx_eq (s := s₂) (txnIdx + 1)
        rw [hdec] at hdec'
        exact ⟨vs, vi, hdec'⟩
      · simp only [Prod.mk.injEq] at hdec
        exact ⟨s₂.validationStatus, s₂.validationIdx, hdec.2.symm⟩
    obtain ⟨vs, vi, rfl⟩ := hs₃
    rw [hdec] at h
    simp only [Except.pure_eq_ok, Except.ok.injEq, Prod.mk.injEq] at h
    obtain ⟨rfl, rfl⟩ := h
    exact ⟨⟨_, vi, rfl⟩, .inr ⟨_, rfl⟩⟩
  · simp only [Except.pure_eq_ok, Except.ok.injEq, Prod.mk.injEq] at h
    obtain ⟨rfl, rfl⟩ := h
    exact ⟨⟨s₂.validationStatus, s₂.validationIdx, rfl⟩, .inl rfl⟩

theorem wakeDependenciesAndDecreaseValidationIdx_spec {txnIdx : Nat}
    (h : s.wakeDependenciesAndDecreaseValidationIdx txnIdx = .ok s') :
    ∃ s₁, s.wakeDependenciesAfterExecution txnIdx = .ok s₁ ∧
      ∃ validationStatus validationIdx, s' = { s₁ with validationStatus, validationIdx } := by
  unfold wakeDependenciesAndDecreaseValidationIdx at h
  obtain ⟨s₁, h₁, h⟩ := Except.bind_eq_ok.mp h
  obtain ⟨vs, vi, hdec⟩ := decreaseValidationIdx_eq (s := s₁) (txnIdx + 1)
  simp only [Except.pure_eq_ok, Except.ok.injEq, hdec] at h
  exact ⟨s₁, h₁, vs, vi, h.symm⟩

/-- How `finish_abort` ends once the status is set and the validation index lowered: with
`retry`, or with the incarnation `try_incarnate` hands back. -/
theorem finishAbort_cases {txnIdx incarnation : Nat} {task : SchedulerTask}
    (h : s.finishAbort txnIdx incarnation = .ok (task, s')) :
    ∃ s₁, s.setAbortedStatus txnIdx incarnation = .ok s₁ ∧
      ((task = .retry ∧ s' = (s₁.decreaseValidationIdx (txnIdx + 1)).2) ∨
        ∃ k t, (s₁.decreaseValidationIdx (txnIdx + 1)).2.tryIncarnate txnIdx = (some (k, t), s') ∧
          task = .executionTask txnIdx k t) := by
  unfold finishAbort at h
  obtain ⟨s₁, h₁, h⟩ := Except.bind_eq_ok.mp h
  refine ⟨s₁, h₁, ?_⟩
  dsimp only at h
  split at h
  · split at h
    · rename_i k t s₃ hinc
      simp only [Except.pure_eq_ok, Except.ok.injEq, Prod.mk.injEq] at h
      obtain ⟨rfl, rfl⟩ := h
      exact .inr ⟨k, t, hinc, rfl⟩
    · rename_i s₃ hinc
      simp only [Except.pure_eq_ok, Except.ok.injEq, Prod.mk.injEq] at h
      obtain ⟨rfl, rfl⟩ := h
      rcases tryIncarnate_spec hinc with ⟨-, rfl⟩ | ⟨_, _, _, _, hsome, -⟩
      · exact .inl ⟨rfl, rfl⟩
      · cases hsome
  · simp only [Except.pure_eq_ok, Except.ok.injEq, Prod.mk.injEq] at h
    exact .inl ⟨h.1.symm, h.2.symm⟩

theorem finishAbort_spec {txnIdx incarnation : Nat} {task : SchedulerTask}
    (h : s.finishAbort txnIdx incarnation = .ok (task, s')) :
    ∃ s₁, s.setAbortedStatus txnIdx incarnation = .ok s₁ ∧
      ∃ validationStatus validationIdx,
        (task = .retry ∧ s' = { s₁ with validationStatus, validationIdx }) ∨
          ∃ k t, ({ s₁ with validationStatus, validationIdx } : Scheduler).tryIncarnate txnIdx =
            (some (k, t), s') ∧ task = .executionTask txnIdx k t := by
  obtain ⟨s₁, h₁, hcases⟩ := finishAbort_cases h
  obtain ⟨vs, vi, hdec⟩ := decreaseValidationIdx_eq (s := s₁) (txnIdx + 1)
  rw [hdec] at hcases
  exact ⟨s₁, h₁, vs, vi, hcases⟩

/-- The state `wait_for_dependency` works in once it has allocated a condition variable. -/
def withFreshCondvar (s : Scheduler) : Scheduler :=
  { s with
    condvars := Function.update s.condvars s.nextCondvar .unresolved
    nextCondvar := s.nextCondvar + 1 }

@[simp] theorem condvars_withFreshCondvar (s : Scheduler) :
    s.withFreshCondvar.condvars = Function.update s.condvars s.nextCondvar .unresolved := rfl

theorem waitForDependency_spec {txnIdx depTxnIdx : Nat} {r : DependencyResult}
    (h : s.waitForDependency txnIdx depTxnIdx = .ok (r, s')) :
    depTxnIdx < txnIdx ∧ depTxnIdx < s.numTxns ∧
      (((r = .resolved ∨ r = .executionHalted ∧ s.executionStatus txnIdx = .executionHalted) ∧
          s' = s.withFreshCondvar) ∨
        ∃ k t, s.executionStatus txnIdx = .executing k t ∧ r = .dependency s.nextCondvar ∧
          s' = { s.withFreshCondvar with
            executionStatus :=
              Function.update s.executionStatus txnIdx (.suspended k s.nextCondvar)
            txnDependency :=
              Function.update s.txnDependency depTxnIdx (s.txnDependency depTxnIdx ++ [txnIdx]) }) := by
  unfold waitForDependency at h
  split at h
  · simp at h
  rename_i hidx
  refine ⟨by omega, by omega, ?_⟩
  simp only [Except.pure_eq_ok] at h
  split at h
  · simp only [Except.ok.injEq, Prod.mk.injEq] at h
    obtain ⟨rfl, rfl⟩ := h
    exact .inl ⟨.inl rfl, rfl⟩
  obtain ⟨⟨suspended, s₁⟩, hsus, h⟩ := Except.bind_eq_ok.mp h
  rcases Iff.mp suspend_eq_ok hsus with ⟨hst, rfl, rfl⟩ | ⟨k, t, hst, rfl, rfl⟩
  · simp only [Bool.not_false, ↓reduceIte, Except.ok.injEq, Prod.mk.injEq] at h
    obtain ⟨rfl, rfl⟩ := h
    exact .inl ⟨.inr ⟨rfl, hst⟩, rfl⟩
  · simp only [Bool.not_true, Bool.false_eq_true, ↓reduceIte, Except.ok.injEq,
      Prod.mk.injEq] at h
    obtain ⟨rfl, rfl⟩ := h
    exact .inr ⟨k, t, hst, rfl, rfl⟩

/-- A transaction that is executing, or halted, can wait on any lower transaction. -/
theorem waitForDependency_ok {txnIdx depTxnIdx : Nat} (hdep : depTxnIdx < txnIdx)
    (hlt : txnIdx < s.numTxns)
    (hst : (∃ k t, s.executionStatus txnIdx = .executing k t) ∨
      s.executionStatus txnIdx = .executionHalted) :
    ∃ r s', s.waitForDependency txnIdx depTxnIdx = .ok (r, s') := by
  unfold waitForDependency
  rw [if_neg (by omega)]
  simp only [Except.pure_eq_ok]
  split
  · exact ⟨_, _, rfl⟩
  rcases hst with ⟨k, t, hst⟩ | hst
  · have hsus : s.withFreshCondvar.suspend txnIdx s.nextCondvar =
        .ok (true, s.withFreshCondvar.setExecutionStatus txnIdx (.suspended k s.nextCondvar)) :=
      Iff.mpr suspend_eq_ok (.inr ⟨k, t, hst, rfl, rfl⟩)
    unfold withFreshCondvar at hsus
    rw [hsus]
    exact ⟨_, _, rfl⟩
  · have hsus : s.withFreshCondvar.suspend txnIdx s.nextCondvar = .ok (false, s.withFreshCondvar) :=
      Iff.mpr suspend_eq_ok (.inl ⟨hst, rfl, rfl⟩)
    unfold withFreshCondvar at hsus
    rw [hsus]
    exact ⟨_, _, rfl⟩

/-- `finish_execution` fails only where setting the status or waking the dependencies does. -/
theorem finishExecution_ok {txnIdx incarnation : Nat} {revalidateSuffix : Bool} {s₁ s₂ : Scheduler}
    (h₁ : s.setExecutedStatus txnIdx incarnation = .ok s₁)
    (h₂ : s₁.wakeDependenciesAfterExecution txnIdx = .ok s₂) :
    ∃ task s', s.finishExecution txnIdx incarnation revalidateSuffix = .ok (task, s') := by
  unfold finishExecution
  rw [h₁, Except.ok_bind, h₂, Except.ok_bind]
  dsimp only
  split <;> exact ⟨_, _, rfl⟩

/-- `finish_abort` fails only where setting the status does. -/
theorem finishAbort_ok {txnIdx incarnation : Nat} {s₁ : Scheduler}
    (h₁ : s.setAbortedStatus txnIdx incarnation = .ok s₁) :
    ∃ task s', s.finishAbort txnIdx incarnation = .ok (task, s') := by
  unfold finishAbort
  rw [h₁, Except.ok_bind]
  dsimp only
  split
  · rcases (s₁.decreaseValidationIdx (txnIdx + 1)).2.tryIncarnate txnIdx with ⟨_ | ⟨k, t⟩, s₃⟩ <;>
      exact ⟨_, _, rfl⟩
  · exact ⟨_, _, rfl⟩

theorem wakeDependenciesAndDecreaseValidationIdx_ok {txnIdx : Nat} {s₁ : Scheduler}
    (h₁ : s.wakeDependenciesAfterExecution txnIdx = .ok s₁) :
    ∃ s', s.wakeDependenciesAndDecreaseValidationIdx txnIdx = .ok s' := by
  unfold wakeDependenciesAndDecreaseValidationIdx
  rw [h₁, Except.ok_bind]
  exact ⟨_, rfl⟩

end Specs

/-! ## The waves of the validation algorithm

The specifications above leave the validation index, the validation statuses and the commit state
as existentials.  The commit rule reads them, so these lemmas say exactly how each operation moves
them. -/

section Waves

variable {s s' : Scheduler}

/-- `decrease_validation_idx` starts a new wave at `targetIdx` when the validation index is past
it, raising the triggered wave there; otherwise it changes nothing. -/
theorem decreaseValidationIdx_cases (targetIdx : Nat) :
    (s.decreaseValidationIdx targetIdx = (none, s) ∧
        (targetIdx = s.numTxns ∨ s.validationIdx.1 ≤ targetIdx)) ∨
      (targetIdx ≠ s.numTxns ∧ targetIdx < s.validationIdx.1 ∧
        s.decreaseValidationIdx targetIdx = (some (s.validationIdx.2 + 1),
          { s with
            validationStatus := Function.update s.validationStatus targetIdx
              { s.validationStatus targetIdx with
                maxTriggeredWave :=
                  max (s.validationStatus targetIdx).maxTriggeredWave (s.validationIdx.2 + 1) }
            validationIdx := (targetIdx, s.validationIdx.2 + 1) })) := by
  unfold decreaseValidationIdx
  dsimp only
  split_ifs with htarget hpast
  · exact .inl ⟨rfl, .inl htarget⟩
  · exact .inr ⟨htarget, hpast, rfl⟩
  · exact .inl ⟨rfl, .inr (Nat.le_of_not_lt hpast)⟩

/-- The compare-and-swap of `try_validate_next_version` moves the validation index one step, or
fails and leaves it. -/
theorem tryValidateNextVersion_validationIdx (idxToValidate wave : Nat) :
    (s.tryValidateNextVersion idxToValidate wave).2 = s ∨
      (s.validationIdx = (idxToValidate, wave) ∧
        (s.tryValidateNextVersion idxToValidate wave).2 =
          { s with validationIdx := (idxToValidate + 1, wave) }) := by
  unfold tryValidateNextVersion
  split_ifs with hidx
  · exact .inr ⟨hidx, rfl⟩
  · exact .inl rfl

/-- A validation pass at the validation index moves it one step at most. -/
theorem validationIdx_of_tryValidateNextVersion {r : Option (Nat × Nat × Nat)}
    (h : s.tryValidateNextVersion s.validationIdx.1 s.validationIdx.2 = (r, s')) :
    s'.validationIdx = s.validationIdx ∨
      s'.validationIdx = (s.validationIdx.1 + 1, s.validationIdx.2) := by
  have hv := tryValidateNextVersion_validationIdx (s := s) s.validationIdx.1 s.validationIdx.2
  rw [h] at hv
  rcases hv with rfl | ⟨-, rfl⟩
  · exact .inl rfl
  · exact .inr rfl

/-- One pass of `next_task` moves the validation index at most one step and leaves the validation
statuses and the commit state. -/
theorem nextTaskIteration_waves {r : Option SchedulerTask} (h : s.nextTaskIteration = (r, s')) :
    s'.numTxns = s.numTxns ∧ s'.validationStatus = s.validationStatus ∧
      s'.commitState = s.commitState ∧
      (s'.validationIdx = s.validationIdx ∨
        s'.validationIdx = (s.validationIdx.1 + 1, s.validationIdx.2)) := by
  have hrest : s'.numTxns = s.numTxns ∧ s'.validationStatus = s.validationStatus ∧
      s'.commitState = s.commitState := by
    obtain ⟨_, _, ⟨-, rfl⟩ | ⟨_, _, _, -, -, -, rfl⟩⟩ := nextTaskIteration_spec h <;>
      exact ⟨rfl, rfl, rfl⟩
  refine ⟨hrest.1, hrest.2.1, hrest.2.2, ?_⟩
  rcases nextTaskIteration_cases h with ⟨-, rfl⟩ | ⟨-, rfl⟩ | ⟨-, _, _, _, hv, -⟩ |
      ⟨s₁, hs₁, _, hexec⟩
  · exact .inl rfl
  · exact .inl rfl
  · exact validationIdx_of_tryValidateNextVersion hv
  · -- the execution pass leaves the validation index as the validation pass left it
    have hs' : s'.validationIdx = s₁.validationIdx := by
      rcases hexec with ⟨-, rfl⟩ | ⟨_, _, _, -, -, -, rfl⟩ <;> rfl
    rw [hs']
    rcases hs₁ with rfl | hv
    · exact .inl rfl
    · exact validationIdx_of_tryValidateNextVersion hv

/-- `try_commit` raises the commit wave to the triggered wave of the commit index, and commits the
transaction there when it is executed and validated in a wave no lower than the commit wave and its
required wave. -/
theorem tryCommit_cases {r : Option (Nat × Nat)} (h : s.tryCommit = (r, s')) :
    (r = none ∧ ∃ commitWave, s.commitState.2 ≤ commitWave ∧
        s' = { s with commitState := (s.commitState.1, commitWave) }) ∨
      ∃ k w, s.commitState.1 ≠ s.numTxns ∧ s.executionStatus s.commitState.1 = .executed k ∧
        (s.validationStatus s.commitState.1).maybeMaxValidatedWave = some w ∧
        max (max s.commitState.2 (s.validationStatus s.commitState.1).maxTriggeredWave)
          (s.validationStatus s.commitState.1).requiredWave ≤ w ∧
        r = some (s.commitState.1, k) ∧
        ∃ doneMarker, s' =
          { s with
            executionStatus := Function.update s.executionStatus s.commitState.1 (.committed k)
            commitState := (s.commitState.1 + 1,
              max s.commitState.2 (s.validationStatus s.commitState.1).maxTriggeredWave)
            doneMarker } := by
  unfold tryCommit at h
  dsimp only at h
  -- every branch that does not commit keeps the commit index
  have hkeep : ∀ commitWave, s.commitState.2 ≤ commitWave →
      (none, { s with commitState := (s.commitState.1, commitWave) }) = (r, s') →
      (r = none ∧ ∃ commitWave, s.commitState.2 ≤ commitWave ∧
        s' = { s with commitState := (s.commitState.1, commitWave) }) := by
    intro commitWave hle heq
    simp only [Prod.mk.injEq] at heq
    exact ⟨heq.1.symm, commitWave, hle, heq.2.symm⟩
  split at h
  · exact .inl (hkeep s.commitState.2 (Nat.le_refl _) (by rw [← h]))
  rename_i hne
  split at h
  · rename_i k hst
    split at h
    · rename_i w hw
      split at h
      · rename_i hle
        simp only [Prod.mk.injEq] at h
        obtain ⟨rfl, rfl⟩ := h
        refine .inr ⟨k, w, hne, hst, hw, hle, rfl, ?_⟩
        split_ifs
        · exact ⟨true, rfl⟩
        · exact ⟨s.doneMarker, rfl⟩
      · exact .inl (hkeep _ (Nat.le_max_left _ _) h)
    · exact .inl (hkeep _ (Nat.le_max_left _ _) h)
  · exact .inl (hkeep s.commitState.2 (Nat.le_refl _) (by rw [← h]))

/-- `finish_execution` after its status and wake-up steps: with the validation index past the
transaction, the wave of the validation task it hands back, after lowering the validation index
for a revalidated suffix, becomes the transaction's required wave. -/
theorem finishExecution_waves {txnIdx incarnation : Nat} {revalidateSuffix : Bool}
    {task : SchedulerTask}
    (h : s.finishExecution txnIdx incarnation revalidateSuffix = .ok (task, s')) :
    ∃ s₁ s₂, s.setExecutedStatus txnIdx incarnation = .ok s₁ ∧
      s₁.wakeDependenciesAfterExecution txnIdx = .ok s₂ ∧
      ((s₂.validationIdx.1 ≤ txnIdx ∧ s' = s₂) ∨
        (txnIdx < s₂.validationIdx.1 ∧ ∃ s₃,
          (revalidateSuffix = false ∧ s₃ = s₂ ∨
            revalidateSuffix = true ∧ s₃ = (s₂.decreaseValidationIdx (txnIdx + 1)).2) ∧
          s' = { s₃ with
            validationStatus := Function.update s₃.validationStatus txnIdx
              { s₃.validationStatus txnIdx with requiredWave := s₃.validationIdx.2 } })) := by
  unfold finishExecution at h
  obtain ⟨s₁, h₁, h⟩ := Except.bind_eq_ok.mp h
  obtain ⟨s₂, h₂, h⟩ := Except.bind_eq_ok.mp h
  refine ⟨s₁, s₂, h₁, h₂, ?_⟩
  dsimp only at h
  split at h
  · rename_i hpast
    refine .inr ⟨hpast, ?_⟩
    simp only [Except.pure_eq_ok, Except.ok.injEq, Prod.mk.injEq] at h
    rw [← h.2]
    -- the wave handed back is the one the (possibly) lowered validation index carries
    cases revalidateSuffix
    · exact ⟨s₂, .inl ⟨rfl, rfl⟩, rfl⟩
    · refine ⟨_, .inr ⟨rfl, rfl⟩, ?_⟩
      rcases decreaseValidationIdx_cases (s := s₂) (txnIdx + 1) with ⟨hnone, -⟩ | ⟨-, -, hsome⟩
      · simp only [↓reduceIte, hnone, Option.getD_none]
      · simp only [↓reduceIte, hsome, Option.getD_some]
  · rename_i hpast
    simp only [Except.pure_eq_ok, Except.ok.injEq, Prod.mk.injEq] at h
    exact .inl ⟨Nat.le_of_not_lt hpast, h.2.symm⟩

/-- `finish_abort` lowers the validation index after setting the status; the incarnation it may
hand back only changes the transaction's status. -/
theorem finishAbort_waves {txnIdx incarnation : Nat} {task : SchedulerTask}
    (h : s.finishAbort txnIdx incarnation = .ok (task, s')) :
    ∃ s₁, s.setAbortedStatus txnIdx incarnation = .ok s₁ ∧
      (s' = (s₁.decreaseValidationIdx (txnIdx + 1)).2 ∨
        ∃ status, s' = (s₁.decreaseValidationIdx (txnIdx + 1)).2.setExecutionStatus txnIdx status) := by
  obtain ⟨s₁, h₁, hcases⟩ := finishAbort_cases h
  refine ⟨s₁, h₁, ?_⟩
  rcases hcases with ⟨-, rfl⟩ | ⟨k, t, hinc, -⟩
  · exact .inl rfl
  · rcases tryIncarnate_spec hinc with ⟨hnone, -⟩ | ⟨_, _, -, -, -, hs₃⟩
    · cases hnone
    · exact .inr ⟨_, hs₃⟩

theorem wakeDependenciesAndDecreaseValidationIdx_eq_ok {txnIdx : Nat}
    (h : s.wakeDependenciesAndDecreaseValidationIdx txnIdx = .ok s') :
    ∃ s₁, s.wakeDependenciesAfterExecution txnIdx = .ok s₁ ∧
      s' = (s₁.decreaseValidationIdx (txnIdx + 1)).2 := by
  unfold wakeDependenciesAndDecreaseValidationIdx at h
  obtain ⟨s₁, h₁, h⟩ := Except.bind_eq_ok.mp h
  simp only [Except.pure_eq_ok, Except.ok.injEq] at h
  exact ⟨s₁, h₁, h.symm⟩

end Waves

/-! ## Calls

What one call of each kind returns and leaves, in terms of the operation it makes. -/

section Calls

variable {s s' : Scheduler} {o : CallOutput}

theorem call_tryCommit_eq_ok :
    s.call .tryCommit = .ok (o, s') ↔ ∃ r, s.tryCommit = (r, s') ∧ o = .committed r := by
  delta call
  rcases s.tryCommit with ⟨r, s₁⟩
  simp [eq_comm, and_comm]

theorem call_tryAbort_eq_ok {txnIdx incarnation : Nat} :
    s.call (.tryAbort txnIdx incarnation) = .ok (o, s') ↔
      ∃ b, s.tryAbort txnIdx incarnation = (b, s') ∧ o = .aborted b := by
  delta call
  rcases hc : s.tryAbort txnIdx incarnation with ⟨b, s₁⟩
  cases b <;> simp [hc, eq_comm, and_comm]

theorem call_nextTask_eq_ok :
    s.call .nextTask = .ok (o, s') ↔ ∃ r, s.nextTaskIteration = (r, s') ∧ o = .task r := by
  delta call
  rcases s.nextTaskIteration with ⟨r, s₁⟩
  simp [eq_comm, and_comm]

theorem call_finishValidation_eq_ok {txnIdx wave : Nat} :
    s.call (.finishValidation txnIdx wave) = .ok (o, s') ↔
      s' = s.finishValidation txnIdx wave ∧ o = .unit := by
  delta call
  simp [eq_comm, and_comm]

theorem call_finishExecution_eq_ok {txnIdx incarnation : Nat} {revalidateSuffix : Bool} :
    s.call (.finishExecution txnIdx incarnation revalidateSuffix) = .ok (o, s') ↔
      ∃ task, s.finishExecution txnIdx incarnation revalidateSuffix = .ok (task, s') ∧
        o = .task (some task) := by
  delta call
  rcases hc : s.finishExecution txnIdx incarnation revalidateSuffix with _ | ⟨task, s₁⟩
  · simp [hc]
  · simp [hc, eq_comm, and_comm]

theorem call_wakeDependenciesAndDecreaseValidationIdx_eq_ok {txnIdx : Nat} :
    s.call (.wakeDependenciesAndDecreaseValidationIdx txnIdx) = .ok (o, s') ↔
      s.wakeDependenciesAndDecreaseValidationIdx txnIdx = .ok s' ∧ o = .unit := by
  delta call
  rcases hc : s.wakeDependenciesAndDecreaseValidationIdx txnIdx with _ | s₁
  · simp [hc]
  · simp [hc, eq_comm, and_comm]

theorem call_finishAbort_eq_ok {txnIdx incarnation : Nat} :
    s.call (.finishAbort txnIdx incarnation) = .ok (o, s') ↔
      ∃ task, s.finishAbort txnIdx incarnation = .ok (task, s') ∧ o = .task (some task) := by
  delta call
  rcases hc : s.finishAbort txnIdx incarnation with _ | ⟨task, s₁⟩
  · simp [hc]
  · simp [hc, eq_comm, and_comm]

theorem call_halt_eq_ok : s.call .halt = .ok (o, s') ↔ ∃ b, s.halt = (b, s') ∧ o = .halted b := by
  delta call
  rcases s.halt with ⟨b, s₁⟩
  cases b <;> simp [eq_comm, and_comm]

theorem call_waitForDependency_eq_ok {txnIdx depTxnIdx : Nat} :
    s.call (.waitForDependency txnIdx depTxnIdx) = .ok (o, s') ↔
      ∃ r, s.waitForDependency txnIdx depTxnIdx = .ok (r, s') ∧ o = .dependency r := by
  delta call
  rcases hc : s.waitForDependency txnIdx depTxnIdx with _ | ⟨r, s₁⟩
  · simp [hc]
  · simp [hc, eq_comm, and_comm]

end Calls

end Scheduler

end CreditChain
