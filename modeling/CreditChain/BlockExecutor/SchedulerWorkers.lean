import CreditChain.BlockExecutor.SchedulerStatus

/-!
# Workers driving the scheduler

`worker_loop` of the executor around the scheduler: every worker holds the task it was handed and
makes the scheduler calls that task asks for.  `ParallelExecution.step` is one atomic action of one
worker, and `Reachable` are the states a block reaches from `Scheduler::new` by any interleaving of
such actions.  Between two calls a worker may also read and validate (`validate`, with its result
left open), wait on a condition variable (`wake`), or resolve one for a `Wakeup` task (`notify`);
commits, `halt` and `wake_dependencies_and_decrease_validation_idx` may come from any worker at any
time.

`Invariant` ties the workers to the execution statuses: an executing, aborting or suspended
transaction has at most one worker working on it and that worker's state agrees with the status,
the dependency lists hold distinct suspended (or halted) transactions, and a condition variable is
awaited by at most one transaction and is unresolved while it is.  It holds in every reachable state
(`Reachable.invariant`), and from it no action returns a `PanicError` (`Invariant.step_ok`):
`suspend`, `resume`, `set_executed_status` and `set_aborted_status` always find the status they
expect.
-/

namespace CreditChain

open Scheduler (SchedulerCall CallOutput setExecutionStatus_eq)

/-- Where a worker of `worker_loop` is: the task it holds, or the call it is about to make. -/
inductive WorkerState
  /-- about to call `next_task` -/
  | retry
  /-- holds `ValidationTask(txnIdx, incarnation, wave)` -/
  | validating (txnIdx incarnation wave : Nat)
  /-- about to call `finish_validation` -/
  | finishingValidation (txnIdx wave : Nat)
  /-- `try_abort` succeeded; about to call `finish_abort` -/
  | aborting (txnIdx incarnation : Nat)
  /-- executing the incarnation -/
  | executing (txnIdx incarnation : Nat)
  /-- blocked in `wait_for_dependency` on the condition variable -/
  | waiting (txnIdx incarnation condvar : Nat)
  /-- holds `ExecutionTask(_, _, Wakeup(condvar))` -/
  | waking (condvar : Nat)
  /-- out of the loop -/
  | done
  deriving DecidableEq, Repr

namespace WorkerState

/-- The state a worker enters with the task a call handed it. -/
def ofTask : SchedulerTask → WorkerState
  | .executionTask txnIdx incarnation .execution => .executing txnIdx incarnation
  | .executionTask _ _ (.wakeup condvar) => .waking condvar
  | .validationTask txnIdx incarnation wave => .validating txnIdx incarnation wave
  | .retry => .retry
  | .done => .done

/-- The state after `next_task`, `finish_execution` or `finish_abort`: the task handed back, and
`retry` where the loop of `next_task` goes round again. -/
def ofOutput : CallOutput → WorkerState
  | .task (some task) => ofTask task
  | _ => .retry

/-- The state after the `try_abort` of a failed validation: abort, or finish the validation where
the incarnation was already aborted. -/
def afterTryAbort (txnIdx incarnation wave : Nat) : CallOutput → WorkerState
  | .aborted true => .aborting txnIdx incarnation
  | _ => .finishingValidation txnIdx wave

/-- The state after `wait_for_dependency`: wait on the condition variable, or go on executing. -/
def afterWaitForDependency (txnIdx incarnation : Nat) : CallOutput → WorkerState
  | .dependency (.dependency condvar) => .waiting txnIdx incarnation condvar
  | _ => .executing txnIdx incarnation

/-- The transaction whose execution status the worker is working on. -/
def owner? : WorkerState → Option Nat
  | .aborting txnIdx _ | .executing txnIdx _ | .waiting txnIdx _ _ => some txnIdx
  | _ => none

end WorkerState

/-- One atomic action of a worker. -/
inductive WorkerAction
  | nextTask
  /-- the result of validating the read set, which the scheduler does not see -/
  | validate (valid : Bool)
  | finishValidation
  | finishAbort
  /-- a read of the executing incarnation hit an estimate of `depTxnIdx` -/
  | waitForDependency (depTxnIdx : Nat)
  | finishExecution (revalidateSuffix : Bool)
  /-- `cvar.wait` returns -/
  | wake
  /-- the `Wakeup` task marks its condition variable resolved -/
  | notify
  | tryCommit
  | wakeDependenciesAndDecreaseValidationIdx (txnIdx : Nat)
  | halt
  deriving DecidableEq, Repr

/-- The scheduler and the state of every worker. -/
structure ParallelExecution where
  scheduler : Scheduler
  workers : Nat → WorkerState

namespace ParallelExecution

/-- `numWorkers` workers about to call `next_task`. -/
def init (scheduler : Scheduler) (numWorkers : Nat) : ParallelExecution :=
  ⟨scheduler, fun w => if w < numWorkers then .retry else .done⟩

/-- Worker `w` makes the call `c` and moves on to `next` of what it returns. -/
def callScheduler (e : ParallelExecution) (w : Nat) (c : SchedulerCall)
    (next : CallOutput → WorkerState) : Except PanicError ParallelExecution :=
  (e.scheduler.call c).map fun (output, scheduler) =>
    ⟨scheduler, Function.update e.workers w (next output)⟩

/-- Worker `w` moves on without a call. -/
def setWorker (e : ParallelExecution) (w : Nat) (state : WorkerState) : ParallelExecution :=
  { e with workers := Function.update e.workers w state }

/-- Worker `w` takes the action; `none` where its state does not allow it. -/
def step (e : ParallelExecution) (w : Nat) :
    WorkerAction → Option (Except PanicError ParallelExecution)
  | .nextTask =>
    match e.workers w with
    | .retry => some (e.callScheduler w .nextTask WorkerState.ofOutput)
    | _ => none
  | .validate valid =>
    match e.workers w with
    | .validating txnIdx incarnation wave =>
      -- `update_on_validation`: only a failed validation tries to abort
      if valid then some (.ok (e.setWorker w (.finishingValidation txnIdx wave)))
      else some (e.callScheduler w (.tryAbort txnIdx incarnation)
        (WorkerState.afterTryAbort txnIdx incarnation wave))
    | _ => none
  | .finishValidation =>
    match e.workers w with
    | .finishingValidation txnIdx wave =>
      some (e.callScheduler w (.finishValidation txnIdx wave) fun _ => .retry)
    | _ => none
  | .finishAbort =>
    match e.workers w with
    | .aborting txnIdx incarnation =>
      some (e.callScheduler w (.finishAbort txnIdx incarnation) WorkerState.ofOutput)
    | _ => none
  | .waitForDependency depTxnIdx =>
    match e.workers w with
    | .executing txnIdx incarnation =>
      -- an incarnation only reads the writes of lower transactions
      if depTxnIdx < txnIdx then
        some (e.callScheduler w (.waitForDependency txnIdx depTxnIdx)
          (WorkerState.afterWaitForDependency txnIdx incarnation))
      else none
    | _ => none
  | .finishExecution revalidateSuffix =>
    match e.workers w with
    | .executing txnIdx incarnation =>
      some (e.callScheduler w (.finishExecution txnIdx incarnation revalidateSuffix)
        WorkerState.ofOutput)
    | _ => none
  | .wake =>
    match e.workers w with
    | .waiting txnIdx incarnation condvar =>
      if e.scheduler.condvars condvar = .unresolved then none
      else some (.ok (e.setWorker w (.executing txnIdx incarnation)))
    | _ => none
  | .notify =>
    match e.workers w with
    | .waking condvar =>
      some (.ok ⟨{ e.scheduler with
        condvars := Function.update e.scheduler.condvars condvar .resolved },
        Function.update e.workers w .retry⟩)
    | _ => none
  | .tryCommit => some (e.callScheduler w .tryCommit fun _ => e.workers w)
  | .wakeDependenciesAndDecreaseValidationIdx txnIdx =>
    if txnIdx < e.scheduler.numTxns then
      some (e.callScheduler w (.wakeDependenciesAndDecreaseValidationIdx txnIdx)
        fun _ => e.workers w)
    else none
  | .halt => some (e.callScheduler w .halt fun _ => e.workers w)

/-- The states a block reaches from `Scheduler::new` by any interleaving of the workers. -/
inductive Reachable : ParallelExecution → Prop
  | init {numTxns numWorkers : Nat} {scheduler : Scheduler} :
      Scheduler.new numTxns = some scheduler → Reachable (init scheduler numWorkers)
  | step {e e' : ParallelExecution} {w : Nat} {a : WorkerAction} :
      Reachable e → e.step w a = some (.ok e') → Reachable e'

end ParallelExecution

/-! ## The invariant -/

namespace ExecutionStatus

/-- The status waits on the condition variable, or is to be woken from it. -/
def Awaits (condvar : Nat) : ExecutionStatus → Prop
  | .suspended _ c | .ready _ (.wakeup c) => c = condvar
  | _ => False

/-- The statuses no worker works on. -/
def Unowned : ExecutionStatus → Prop
  | .ready _ .execution | .executed _ | .committed _ => True
  | _ => False

theorem awaits_update {es : Nat → ExecutionStatus} {i j cv : Nat} {st : ExecutionStatus}
    (hawaits : ∀ cv, st.Awaits cv → (es i).Awaits cv)
    (h : (Function.update es i st j).Awaits cv) : (es j).Awaits cv := by
  by_cases hj : j = i
  · subst hj
    rw [Function.update_self] at h
    exact hawaits cv h
  · rwa [Function.update_of_ne hj] at h

@[simp] theorem awaits_resumed {st : ExecutionStatus} {cv : Nat} :
    st.resumed.Awaits cv ↔ st.Awaits cv := by
  cases st <;> exact Iff.rfl

theorem unowned_of_resumed {st : ExecutionStatus} (h : st.resumed.Unowned) : st.Unowned := by
  cases st <;> exact h

end ExecutionStatus

namespace WorkerState

/-- What a worker's state says of the scheduler. -/
def Agrees (s : Scheduler) : WorkerState → Prop
  | .validating txnIdx _ _ => txnIdx < s.numTxns
  | .aborting txnIdx k =>
    txnIdx < s.numTxns ∧
      (s.executionStatus txnIdx = .aborting k ∨ s.executionStatus txnIdx = .executionHalted)
  | .executing txnIdx k =>
    txnIdx < s.numTxns ∧
      ((∃ t, s.executionStatus txnIdx = .executing k t) ∨
        s.executionStatus txnIdx = .executionHalted)
  | .waiting txnIdx k cv =>
    txnIdx < s.numTxns ∧
      (s.executionStatus txnIdx = .suspended k cv ∨
        s.executionStatus txnIdx = .ready k (.wakeup cv) ∨
        s.executionStatus txnIdx = .executing k (.wakeup cv) ∨
        s.executionStatus txnIdx = .executionHalted)
  -- the wakeup is handed out once nothing awaits the condition variable any more
  | .waking cv => cv < s.nextCondvar ∧ ∀ j, ¬ (s.executionStatus j).Awaits cv
  | .retry | .finishingValidation _ _ | .done => True

/-- A worker agrees with a scheduler that grew its condition variables and changed no status the
worker works on, and awaits no condition variable that was not awaited. -/
theorem Agrees.mono {s s' : Scheduler} {W : WorkerState} (hA : W.Agrees s)
    (hn : s'.numTxns = s.numTxns) (hnc : s.nextCondvar ≤ s'.nextCondvar)
    (hes : ∀ j, W.owner? = some j → s'.executionStatus j = s.executionStatus j)
    (hawaits : ∀ j cv, cv < s.nextCondvar → (s'.executionStatus j).Awaits cv →
      (s.executionStatus j).Awaits cv) :
    W.Agrees s' := by
  cases W with
  | validating i k wave =>
    show i < s'.numTxns
    exact hn ▸ hA
  | aborting i k | executing i k | waiting i k cv =>
    obtain ⟨hlt, hst⟩ := hA
    exact ⟨hn ▸ hlt, by rwa [hes i rfl]⟩
  | waking cv => exact ⟨by have := hA.1; omega, fun j hj => hA.2 j (hawaits j cv hA.1 hj)⟩
  | retry | finishingValidation | done => trivial

/-- A worker agrees with the statuses `wake_dependencies_after_execution` leaves: each status is
as it was or `resumed`. -/
theorem Agrees.resume {s s' : Scheduler} {W : WorkerState} (hA : W.Agrees s)
    (hn : s'.numTxns = s.numTxns) (hnc : s'.nextCondvar = s.nextCondvar)
    (hes : ∀ j, s'.executionStatus j = s.executionStatus j ∨
      s'.executionStatus j = (s.executionStatus j).resumed) :
    W.Agrees s' := by
  cases W with
  | validating i k wave =>
    show i < s'.numTxns
    exact hn ▸ hA
  | aborting i k | executing i k | waiting i k cv =>
    obtain ⟨hlt, hst⟩ := hA
    refine ⟨hn ▸ hlt, ?_⟩
    -- only a suspended status is changed by `resumed`, into the next one of the waiting worker
    rcases hes i with he | he <;> rw [he]
    · exact hst
    · revert hst
      cases s.executionStatus i with
      | suspended k' c => simp
      | _ => exact id
  | waking cv =>
    refine ⟨hnc ▸ hA.1, fun j hj => hA.2 j ?_⟩
    rcases hes j with he | he <;> rw [he] at hj
    · exact hj
    · exact Iff.mp ExecutionStatus.awaits_resumed hj
  | retry | finishingValidation | done => trivial

/-- The only worker on a transaction ready to be woken is the one waiting for the wakeup. -/
theorem Agrees.eq_waiting {s : Scheduler} {W : WorkerState} {i k cv : Nat} (hA : W.Agrees s)
    (hW : W.owner? = some i) (hst : s.executionStatus i = .ready k (.wakeup cv)) :
    W = .waiting i k cv := by
  cases W with
  | aborting i' k' | executing i' k' =>
    replace hW := Option.some.inj hW
    subst hW
    obtain ⟨-, hA⟩ := hA
    simp [hst] at hA
  | waiting i' k' cv' =>
    replace hW := Option.some.inj hW
    subst hW
    obtain ⟨-, hA⟩ := hA
    simp only [hst, reduceCtorEq, ExecutionStatus.ready.injEq,
      ExecutionTaskType.wakeup.injEq, false_or, or_false] at hA
    obtain ⟨rfl, rfl⟩ := hA
    rfl
  | _ => cases hW

end WorkerState

namespace ParallelExecution

/-- The invariant of the worker states and the scheduler. -/
structure Invariant (s : Scheduler) (workers : Nat → WorkerState) : Prop where
  /-- at most one worker works on a transaction -/
  owner_unique : ∀ w₁ w₂ i, (workers w₁).owner? = some i → (workers w₂).owner? = some i → w₁ = w₂
  agrees : ∀ w, (workers w).Agrees s
  unowned : ∀ i w, (s.executionStatus i).Unowned → (workers w).owner? ≠ some i
  awaits_lt : ∀ i cv, (s.executionStatus i).Awaits cv → i < s.numTxns
  awaits_fresh : ∀ i cv, (s.executionStatus i).Awaits cv → cv < s.nextCondvar
  awaits_unique : ∀ i j cv, (s.executionStatus i).Awaits cv → (s.executionStatus j).Awaits cv →
    i = j
  awaits_unresolved : ∀ i cv, (s.executionStatus i).Awaits cv → s.condvars cv = .unresolved
  deps_waiting : ∀ d j, j ∈ s.txnDependency d →
    (∃ k cv, s.executionStatus j = .suspended k cv) ∨ s.executionStatus j = .executionHalted
  deps_nodup : ∀ d, (s.txnDependency d).Nodup
  deps_disjoint : ∀ d₁ d₂ j, j ∈ s.txnDependency d₁ → j ∈ s.txnDependency d₂ → d₁ = d₂

section Invariant

variable {s s' : Scheduler} {ws : Nat → WorkerState}

/-- A transaction in a dependency list is neither executing, aborting nor ready. -/
theorem Invariant.not_mem_txnDependency (h : Invariant s ws) {i : Nat}
    (hst : ¬ (∃ k cv, s.executionStatus i = .suspended k cv) ∧
      s.executionStatus i ≠ .executionHalted) (d : Nat) : i ∉ s.txnDependency d :=
  fun hmem => (h.deps_waiting d i hmem).elim hst.1 hst.2

theorem Invariant.agrees_of (h : Invariant s ws) {w : Nat} {W : WorkerState} (hw : ws w = W) :
    W.Agrees s :=
  hw ▸ h.agrees w

/-- The invariant reads of the scheduler only the statuses, the dependency lists and the condition
variables. -/
theorem Invariant.of_core (h : Invariant s ws) (hn : s'.numTxns = s.numTxns)
    (hd : s'.txnDependency = s.txnDependency) (he : s'.executionStatus = s.executionStatus)
    (hc : s'.condvars = s.condvars) (hnc : s'.nextCondvar = s.nextCondvar) : Invariant s' ws where
  owner_unique := h.owner_unique
  agrees w := (h.agrees w).mono hn (Nat.le_of_eq hnc.symm) (fun j _ => by rw [he]) (fun j cv _ hj => by rwa [he] at hj)
  unowned := by rw [he]; exact h.unowned
  awaits_lt := by rw [he, hn]; exact h.awaits_lt
  awaits_fresh := by rw [he, hnc]; exact h.awaits_fresh
  awaits_unique := by rw [he]; exact h.awaits_unique
  awaits_unresolved := by rw [he, hc]; exact h.awaits_unresolved
  deps_waiting := by rw [hd, he]; exact h.deps_waiting
  deps_nodup := by rw [hd]; exact h.deps_nodup
  deps_disjoint := by rw [hd]; exact h.deps_disjoint

/-- A worker moves to a state that agrees with the scheduler and works on what it worked on, or on
a transaction nobody works on and that is not free. -/
theorem Invariant.setWorker (h : Invariant s ws) {w : Nat} {W : WorkerState}
    (hagrees : W.Agrees s)
    (howner : ∀ j, W.owner? = some j → (ws w).owner? = some j ∨
      (¬ (s.executionStatus j).Unowned ∧ ∀ w', w' ≠ w → (ws w').owner? ≠ some j)) :
    Invariant s (Function.update ws w W) where
  owner_unique w₁ w₂ j h₁ h₂ := by
    -- a clash at the moved worker is a clash before, or contradicts `howner`
    have hclash : ∀ w', w' ≠ w → (ws w').owner? = some j → W.owner? = some j → False :=
      fun w' hne hw' hW => by
        rcases howner j hW with hold | ⟨-, hnone⟩
        · exact hne (h.owner_unique w' w j hw' hold)
        · exact hnone w' hne hw'
    by_cases hw₁ : w₁ = w <;> by_cases hw₂ : w₂ = w
    · rw [hw₁, hw₂]
    · subst hw₁
      rw [Function.update_self] at h₁
      rw [Function.update_of_ne hw₂] at h₂
      exact (hclash w₂ hw₂ h₂ h₁).elim
    · subst hw₂
      rw [Function.update_self] at h₂
      rw [Function.update_of_ne hw₁] at h₁
      exact (hclash w₁ hw₁ h₁ h₂).elim
    · rw [Function.update_of_ne hw₁] at h₁
      rw [Function.update_of_ne hw₂] at h₂
      exact h.owner_unique w₁ w₂ j h₁ h₂
  agrees w' := by
    by_cases hw : w' = w
    · subst hw
      rw [Function.update_self]
      exact hagrees
    · rw [Function.update_of_ne hw]
      exact h.agrees w'
  unowned j w' hj := by
    by_cases hw : w' = w
    · subst hw
      rw [Function.update_self]
      intro hW
      rcases howner j hW with hold | ⟨hnot, -⟩
      · exact h.unowned j w' hj hold
      · exact hnot hj
    · rw [Function.update_of_ne hw]
      exact h.unowned j w' hj
  awaits_lt := h.awaits_lt
  awaits_fresh := h.awaits_fresh
  awaits_unique := h.awaits_unique
  awaits_unresolved := h.awaits_unresolved
  deps_waiting := h.deps_waiting
  deps_nodup := h.deps_nodup
  deps_disjoint := h.deps_disjoint

/-- A worker moves to a state that works on nothing. -/
theorem Invariant.release (h : Invariant s ws) {w : Nat} {W : WorkerState}
    (hagrees : W.Agrees s) (hW : W.owner? = none) : Invariant s (Function.update ws w W) :=
  h.setWorker hagrees fun j hj => by simp [hW] at hj

/-- One status changes: the workers on it agree with the new status, a free status has no worker,
no condition variable is newly awaited, and a transaction in a dependency list stays waiting. -/
theorem Invariant.setExecutionStatus (h : Invariant s ws) {i : Nat} {st : ExecutionStatus}
    (howners : ∀ w, (ws w).owner? = some i → (ws w).Agrees (s.setExecutionStatus i st))
    (hunowned : st.Unowned → ∀ w, (ws w).owner? ≠ some i)
    (hawaits : ∀ cv, st.Awaits cv → (s.executionStatus i).Awaits cv)
    (hdeps : ∀ d, i ∈ s.txnDependency d →
      (∃ k cv, st = .suspended k cv) ∨ st = .executionHalted) :
    Invariant (s.setExecutionStatus i st) ws := by
  have haw : ∀ j cv, ((s.setExecutionStatus i st).executionStatus j).Awaits cv →
      (s.executionStatus j).Awaits cv :=
    fun j cv hj => ExecutionStatus.awaits_update hawaits hj
  constructor
  case owner_unique => exact h.owner_unique
  case agrees =>
    intro w
    by_cases hown : (ws w).owner? = some i
    · exact howners w hown
    · refine (h.agrees w).mono rfl (Nat.le_refl _) (fun j hj => ?_) (fun j cv _ => haw j cv)
      have hji : j ≠ i := by rintro rfl; exact hown hj
      simp [hji]
  case unowned =>
    intro j w hj
    by_cases hji : j = i
    · subst hji
      simp only [setExecutionStatus_eq, Function.update_self] at hj
      exact hunowned hj w
    · simp only [setExecutionStatus_eq, Function.update_of_ne hji] at hj
      exact h.unowned j w hj
  case awaits_lt => exact fun j cv hj => h.awaits_lt j cv (haw j cv hj)
  case awaits_fresh => exact fun j cv hj => h.awaits_fresh j cv (haw j cv hj)
  case awaits_unique =>
    exact fun j₁ j₂ cv h₁ h₂ => h.awaits_unique j₁ j₂ cv (haw j₁ cv h₁) (haw j₂ cv h₂)
  case awaits_unresolved => exact fun j cv hj => h.awaits_unresolved j cv (haw j cv hj)
  case deps_waiting =>
    intro d j hj
    by_cases hji : j = i
    · subst hji
      simpa using hdeps d hj
    · simpa [hji] using h.deps_waiting d j hj
  case deps_nodup => exact h.deps_nodup
  case deps_disjoint => exact h.deps_disjoint

/-- `wait_for_dependency` allocates an unresolved condition variable nothing awaits yet. -/
theorem Invariant.withFreshCondvar (h : Invariant s ws) : Invariant s.withFreshCondvar ws where
  __ := h
  agrees w := (h.agrees w).mono rfl (Nat.le_succ _) (fun _ _ => rfl) (fun _ _ _ hj => hj)
  awaits_fresh j cv hj := Nat.lt_succ_of_lt (h.awaits_fresh j cv hj)
  awaits_unresolved j cv hj := by
    by_cases hcv : cv = s.nextCondvar
    · simp [Scheduler.condvars_withFreshCondvar, hcv]
    · simpa [Scheduler.condvars_withFreshCondvar, hcv] using h.awaits_unresolved j cv hj

/-- A condition variable nothing awaits may be set. -/
theorem Invariant.setCondvar (h : Invariant s ws) {cv : Nat}
    (hcv : ∀ j, ¬ (s.executionStatus j).Awaits cv) (r : DependencyStatus) :
    Invariant { s with condvars := Function.update s.condvars cv r } ws where
  __ := h
  agrees w := (h.agrees w).mono rfl (Nat.le_refl _) (fun _ _ => rfl) (fun _ _ _ hj => hj)
  awaits_unresolved j cv' hj := by
    have hne : cv' ≠ cv := by
      rintro rfl
      exact hcv j hj
    simpa [hne] using h.awaits_unresolved j cv' hj

/-- The statuses and lists `wake_dependencies_after_execution` leaves: the list of `d` emptied and
every transaction in it `resumed`. -/
theorem Invariant.wakeDependencies (h : Invariant s ws) (d : Nat) :
    Invariant { s with
      txnDependency := Function.update s.txnDependency d []
      executionStatus := fun j =>
        if j ∈ s.txnDependency d then (s.executionStatus j).resumed else s.executionStatus j } ws := by
  have hes : ∀ j, (if j ∈ s.txnDependency d then (s.executionStatus j).resumed
      else s.executionStatus j) = s.executionStatus j ∨
      (if j ∈ s.txnDependency d then (s.executionStatus j).resumed
        else s.executionStatus j) = (s.executionStatus j).resumed := by
    intro j
    split
    · exact .inr rfl
    · exact .inl rfl
  have haw : ∀ j cv, (if j ∈ s.txnDependency d then (s.executionStatus j).resumed
      else s.executionStatus j).Awaits cv → (s.executionStatus j).Awaits cv := by
    intro j cv hj
    rcases hes j with he | he <;> rw [he] at hj
    · exact hj
    · exact Iff.mp ExecutionStatus.awaits_resumed hj
  -- the other lists are unchanged, and disjoint from the emptied one
  have hmem : ∀ d' j, j ∈ Function.update s.txnDependency d [] d' →
      d' ≠ d ∧ j ∈ s.txnDependency d' := by
    intro d' j hj
    by_cases hd : d' = d
    · subst hd
      simp at hj
    · rw [Function.update_of_ne hd] at hj
      exact ⟨hd, hj⟩
  constructor
  case owner_unique => exact h.owner_unique
  case agrees => exact fun w => (h.agrees w).resume rfl rfl hes
  case unowned =>
    intro j w hj
    rcases hes j with he | he <;> simp only [he] at hj
    · exact h.unowned j w hj
    · exact h.unowned j w (ExecutionStatus.unowned_of_resumed hj)
  case awaits_lt => exact fun j cv hj => h.awaits_lt j cv (haw j cv hj)
  case awaits_fresh => exact fun j cv hj => h.awaits_fresh j cv (haw j cv hj)
  case awaits_unique =>
    exact fun j₁ j₂ cv h₁ h₂ => h.awaits_unique j₁ j₂ cv (haw j₁ cv h₁) (haw j₂ cv h₂)
  case awaits_unresolved => exact fun j cv hj => h.awaits_unresolved j cv (haw j cv hj)
  case deps_waiting =>
    intro d' j hj
    obtain ⟨hd, hj⟩ := hmem d' j hj
    have hjd : j ∉ s.txnDependency d := fun hm => hd (h.deps_disjoint d' d j hj hm)
    simpa [hjd] using h.deps_waiting d' j hj
  case deps_nodup =>
    intro d'
    by_cases hd : d' = d
    · subst hd
      simp
    · simpa [Function.update_of_ne hd] using h.deps_nodup d'
  case deps_disjoint =>
    intro d₁ d₂ j h₁ h₂
    exact h.deps_disjoint d₁ d₂ j (hmem d₁ j h₁).2 (hmem d₂ j h₂).2

/-- `wake_dependencies_after_execution` succeeds and keeps the invariant. -/
theorem Invariant.wakeDependenciesAfterExecution_ok (h : Invariant s ws) (i : Nat) :
    ∃ s', s.wakeDependenciesAfterExecution i = .ok s' ∧ Invariant s' ws := by
  obtain ⟨executionIdx, hok⟩ :=
    Scheduler.wakeDependenciesAfterExecution_ok (h.deps_nodup i) (h.deps_waiting i)
  exact ⟨_, hok, (h.wakeDependencies i).of_core rfl rfl rfl rfl rfl⟩

theorem Invariant.wakeDependenciesAfterExecution (h : Invariant s ws) {i : Nat}
    (hwake : s.wakeDependenciesAfterExecution i = .ok s') : Invariant s' ws := by
  obtain ⟨s'', hok, hinv⟩ := h.wakeDependenciesAfterExecution_ok i
  rw [hok, Except.ok.injEq] at hwake
  exact hwake ▸ hinv

/-- `wait_for_dependency` suspends the executing incarnation on a fresh condition variable and
adds it to the dependencies of `d`; its worker waits. -/
theorem Invariant.suspend (h : Invariant s ws) {w i k d : Nat} {t : ExecutionTaskType}
    (hw : ws w = .executing i k) (hst : s.executionStatus i = .executing k t) :
    Invariant { s.withFreshCondvar with
        executionStatus := Function.update s.executionStatus i (.suspended k s.nextCondvar)
        txnDependency := Function.update s.txnDependency d (s.txnDependency d ++ [i]) }
      (Function.update ws w (.waiting i k s.nextCondvar)) := by
  have hi : i < s.numTxns := by
    have hA := h.agrees w
    rw [hw] at hA
    exact hA.1
  have hnot : ∀ d', i ∉ s.txnDependency d' := h.not_mem_txnDependency (by simp [hst])
  -- the worker keeps working on `i`, so every worker works on what it did
  have howner : ∀ w', (Function.update ws w (.waiting i k s.nextCondvar) w').owner? =
      (ws w').owner? := by
    intro w'
    by_cases hw' : w' = w
    · subst hw'
      rw [Function.update_self, hw]
      rfl
    · rw [Function.update_of_ne hw']
  have hes : ∀ j, j ≠ i →
      Function.update s.executionStatus i (.suspended k s.nextCondvar) j = s.executionStatus j :=
    fun j hj => Function.update_of_ne hj _ _
  -- the only new wait is of `i` on the fresh condition variable
  have haw : ∀ j cv, (Function.update s.executionStatus i (.suspended k s.nextCondvar) j).Awaits cv →
      j = i ∧ cv = s.nextCondvar ∨ j ≠ i ∧ (s.executionStatus j).Awaits cv := by
    intro j cv hj
    by_cases hji : j = i
    · subst hji
      rw [Function.update_self] at hj
      exact .inl ⟨rfl, Eq.symm hj⟩
    · rw [hes j hji] at hj
      exact .inr ⟨hji, hj⟩
  have hmem : ∀ d' j, j ∈ Function.update s.txnDependency d (s.txnDependency d ++ [i]) d' →
      j = i ∧ d' = d ∨ j ≠ i ∧ j ∈ s.txnDependency d' := by
    intro d' j hj
    by_cases hd : d' = d
    · subst hd
      simp only [Function.update_self, List.mem_append, List.mem_singleton] at hj
      rcases hj with hj | rfl
      · exact .inr ⟨fun hji => hnot d' (hji ▸ hj), hj⟩
      · exact .inl ⟨rfl, rfl⟩
    · rw [Function.update_of_ne hd] at hj
      exact .inr ⟨fun hji => hnot d' (hji ▸ hj), hj⟩
  constructor
  case owner_unique =>
    intro w₁ w₂ j h₁ h₂
    rw [howner] at h₁ h₂
    exact h.owner_unique w₁ w₂ j h₁ h₂
  case agrees =>
    intro w'
    by_cases hw' : w' = w
    · subst hw'
      rw [Function.update_self]
      exact ⟨hi, .inl (Function.update_self _ _ _)⟩
    · rw [Function.update_of_ne hw']
      have hown : ∀ j, (ws w').owner? = some j → j ≠ i := by
        rintro j hj rfl
        exact hw' (h.owner_unique w' w j hj (by rw [hw]; rfl))
      refine (h.agrees w').mono rfl (Nat.le_succ _) (fun j hj => hes j (hown j hj)) ?_
      intro j cv hcv hj
      rcases haw j cv hj with ⟨-, rfl⟩ | ⟨-, hj⟩
      · exact absurd hcv (Nat.lt_irrefl _)
      · exact hj
  case unowned =>
    intro j w' hj
    dsimp only at hj
    rw [howner]
    have hji : j ≠ i := by
      rintro rfl
      rw [Function.update_self] at hj
      exact hj
    rw [hes j hji] at hj
    exact h.unowned j w' hj
  case awaits_lt =>
    intro j cv hj
    dsimp only at hj
    rcases haw j cv hj with ⟨rfl, -⟩ | ⟨-, hj⟩
    · exact hi
    · exact h.awaits_lt j cv hj
  case awaits_fresh =>
    intro j cv hj
    dsimp only at hj ⊢
    rcases haw j cv hj with ⟨-, rfl⟩ | ⟨-, hj⟩
    · exact Nat.lt_succ_self _
    · exact Nat.lt_succ_of_lt (h.awaits_fresh j cv hj)
  case awaits_unique =>
    intro j₁ j₂ cv h₁ h₂
    dsimp only at h₁ h₂
    rcases haw j₁ cv h₁ with ⟨hj₁, hcv₁⟩ | ⟨-, h₁⟩ <;>
      rcases haw j₂ cv h₂ with ⟨hj₂, hcv₂⟩ | ⟨-, h₂⟩
    · rw [hj₁, hj₂]
    · exact absurd (h.awaits_fresh j₂ cv h₂) (by omega)
    · exact absurd (h.awaits_fresh j₁ cv h₁) (by omega)
    · exact h.awaits_unique j₁ j₂ cv h₁ h₂
  case awaits_unresolved =>
    intro j cv hj
    dsimp only at hj
    by_cases hcv : cv = s.nextCondvar
    · simp [Scheduler.condvars_withFreshCondvar, hcv]
    · rcases haw j cv hj with ⟨-, rfl⟩ | ⟨-, hj⟩
      · exact absurd rfl hcv
      · simpa [Scheduler.condvars_withFreshCondvar, hcv] using h.awaits_unresolved j cv hj
  case deps_waiting =>
    intro d' j hj
    dsimp only at hj ⊢
    rcases hmem d' j hj with ⟨rfl, -⟩ | ⟨hji, hj⟩
    · simp
    · rw [hes j hji]
      exact h.deps_waiting d' j hj
  case deps_nodup =>
    intro d'
    dsimp only
    by_cases hd : d' = d
    · subst hd
      rw [Function.update_self, ← List.concat_eq_append]
      exact List.Nodup.concat (hnot d') (h.deps_nodup d')
    · rw [Function.update_of_ne hd]
      exact h.deps_nodup d'
  case deps_disjoint =>
    intro d₁ d₂ j h₁ h₂
    dsimp only at h₁ h₂
    rcases hmem d₁ j h₁ with ⟨rfl, rfl⟩ | ⟨hji, h₁⟩ <;>
      rcases hmem d₂ j h₂ with ⟨hji', rfl⟩ | ⟨hji', h₂⟩
    · rfl
    · exact absurd h₂ (hnot d₂)
    · exact absurd hji' hji
    · exact h.deps_disjoint d₁ d₂ j h₁ h₂

/-- The first `halt` halts every transaction of the block; nothing awaits a condition variable
any more. -/
theorem Invariant.halt (h : Invariant s ws) (condvars : Nat → DependencyStatus) :
    Invariant { s with
      executionStatus := fun j => if j < s.numTxns then .executionHalted else s.executionStatus j
      condvars
      doneMarker := true
      hasHalted := true } ws := by
  have haw : ∀ j cv, ¬ (if j < s.numTxns then .executionHalted else s.executionStatus j).Awaits cv := by
    intro j cv hj
    by_cases hlt : j < s.numTxns
    · rw [if_pos hlt] at hj
      exact hj
    · rw [if_neg hlt] at hj
      exact hlt (h.awaits_lt j cv hj)
  constructor
  case owner_unique => exact h.owner_unique
  case agrees =>
    intro w
    have hA := h.agrees w
    cases hW : ws w <;> rw [hW] at hA <;> delta WorkerState.Agrees at hA ⊢ <;>
      simp only at hA ⊢
    case aborting i k | executing i k | waiting i k cv => simp [hA.1]
    case waking cv => exact ⟨hA.1, fun j => haw j cv⟩
    all_goals exact hA
  case unowned =>
    intro j w hj
    dsimp only at hj
    by_cases hlt : j < s.numTxns
    · rw [if_pos hlt] at hj
      exact False.elim hj
    · rw [if_neg hlt] at hj
      exact h.unowned j w hj
  case awaits_lt => exact fun j cv hj => absurd hj (haw j cv)
  case awaits_fresh => exact fun j cv hj => absurd hj (haw j cv)
  case awaits_unique => exact fun j _ cv hj => absurd hj (haw j cv)
  case awaits_unresolved => exact fun j cv hj => absurd hj (haw j cv)
  case deps_waiting =>
    intro d j hj
    by_cases hlt : j < s.numTxns
    · simp [hlt]
    · simpa [hlt] using h.deps_waiting d j hj
  case deps_nodup => exact h.deps_nodup
  case deps_disjoint => exact h.deps_disjoint

/-- A worker takes a status nobody works on and sets it to one it works on. -/
theorem Invariant.claim (h : Invariant s ws) {w i : Nat} {st : ExecutionStatus} {W : WorkerState}
    (hfree : (s.executionStatus i).Unowned) (hW : W.owner? = some i)
    (hA : W.Agrees (s.setExecutionStatus i st)) (hst : ¬ st.Unowned) (hawaits : ∀ cv, ¬ st.Awaits cv) :
    Invariant (s.setExecutionStatus i st) (Function.update ws w W) := by
  have hnobody : ∀ w', (ws w').owner? ≠ some i := fun w' => h.unowned i w' hfree
  have hdeps : ∀ d, i ∉ s.txnDependency d := by
    refine h.not_mem_txnDependency ⟨?_, ?_⟩
    · rintro ⟨k, cv, hsus⟩
      rw [hsus] at hfree
      exact hfree
    · intro hhalt
      rw [hhalt] at hfree
      exact hfree
  have h₁ : Invariant (s.setExecutionStatus i st) ws :=
    h.setExecutionStatus (fun w' hw' => absurd hw' (hnobody w'))
    (fun hun => absurd hun hst) (fun cv hcv => absurd hcv (hawaits cv))
    (fun d hd => absurd hd (hdeps d))
  refine h₁.setWorker hA fun j hj => ?_
  rw [hW, Option.some.injEq] at hj
  subst hj
  exact .inr ⟨by simpa using hst, fun w' _ => hnobody w'⟩

/-- The worker on `i` leaves it, setting its status. -/
theorem Invariant.unclaim (h : Invariant s ws) {w i : Nat} {st : ExecutionStatus} {W : WorkerState}
    (hw : (ws w).owner? = some i) (hA : W.Agrees s) (hW : W.owner? = none)
    (hawaits : ∀ cv, ¬ st.Awaits cv) (hdeps : ∀ d, i ∉ s.txnDependency d) :
    Invariant (s.setExecutionStatus i st) (Function.update ws w W) := by
  -- after the worker moves on, nobody works on `i`
  have hnobody : ∀ w', (Function.update ws w W w').owner? ≠ some i := by
    intro w'
    by_cases hw' : w' = w
    · subst hw'
      simp [hW]
    · rw [Function.update_of_ne hw']
      exact fun hown => hw' (h.owner_unique w' w i hown hw)
  exact (h.release hA hW).setExecutionStatus (fun w' hw' => absurd hw' (hnobody w'))
    (fun _ => hnobody) (fun cv hcv => absurd hcv (hawaits cv)) (fun d hd => absurd hd (hdeps d))

/-- `try_incarnate` hands a ready status to a worker: a fresh execution to execute, a wakeup to
notify the worker waiting for it. -/
theorem Invariant.incarnate (h : Invariant s ws) {w i k : Nat} {t : ExecutionTaskType}
    (hi : i < s.numTxns) (hst : s.executionStatus i = .ready k t) :
    Invariant (s.setExecutionStatus i (.executing k t))
      (Function.update ws w (WorkerState.ofTask (.executionTask i k t))) := by
  have hdeps : ∀ d, i ∈ s.txnDependency d → False :=
    fun d hmem => h.not_mem_txnDependency (by simp [hst]) d hmem
  cases t with
  | execution =>
    exact h.claim (by rw [hst]; trivial) rfl
      (by delta WorkerState.Agrees WorkerState.ofTask; simp [hi]) nofun nofun
  | wakeup cv =>
    have hawaits : (s.executionStatus i).Awaits cv := by
      rw [hst]
      rfl
    -- the waiting worker now sees its incarnation executing the wakeup
    have h₁ : Invariant (s.setExecutionStatus i (.executing k (.wakeup cv))) ws :=
      h.setExecutionStatus
      (fun w' hw' => by
        rw [(h.agrees w').eq_waiting hw' hst]
        delta WorkerState.Agrees
        simp [hi])
      nofun nofun (fun d hd => (hdeps d hd).elim)
    refine h₁.release ⟨h.awaits_fresh i cv hawaits, fun j hj => ?_⟩ rfl
    by_cases hji : j = i
    · subst hji
      simp only [setExecutionStatus_eq, Function.update_self] at hj
      exact hj
    · simp only [setExecutionStatus_eq, Function.update_of_ne hji] at hj
      exact hji (h.awaits_unique j i cv hj hawaits)

/-- The workers of `init` work on nothing, and every status is ready. -/
theorem Invariant.init {numTxns numWorkers : Nat} (hnew : Scheduler.new numTxns = some s) :
    Invariant s (ParallelExecution.init s numWorkers).workers := by
  have hfree : ∀ w, ((ParallelExecution.init s numWorkers).workers w).owner? = none := by
    intro w
    unfold ParallelExecution.init
    dsimp only
    split <;> rfl
  have hagrees : ∀ w, ((ParallelExecution.init s numWorkers).workers w).Agrees s := by
    intro w
    unfold ParallelExecution.init
    dsimp only
    split <;> trivial
  unfold Scheduler.new at hnew
  split_ifs at hnew
  cases hnew
  constructor
  case owner_unique => exact fun w₁ _ j h₁ _ => by simp [hfree] at h₁
  case agrees => exact hagrees
  case unowned => exact fun j w _ => by simp [hfree]
  -- every status is `Ready(0, Execution)`, which awaits nothing
  case awaits_lt => exact fun j cv hj => nomatch hj
  case awaits_fresh => exact fun j cv hj => nomatch hj
  case awaits_unique => exact fun j _ cv hj => nomatch hj
  case awaits_unresolved => exact fun j cv hj => nomatch hj
  case deps_waiting => exact fun d j hj => by simp at hj
  case deps_nodup => exact fun d => List.nodup_nil
  case deps_disjoint => exact fun d₁ d₂ j h₁ => by simp at h₁

/-! ### The status changes of a worker's own transaction -/

/-- `set_executed_status` by the worker executing the incarnation, which then moves on. -/
theorem Invariant.setExecutedStatus (h : Invariant s ws) {w i k : Nat}
    (hw : ws w = .executing i k) (h₁ : s.setExecutedStatus i k = .ok s') :
    Invariant s' (Function.update ws w .retry) := by
  rcases Scheduler.setExecutedStatus_eq_ok.mp h₁ with ⟨-, rfl⟩ | ⟨t, hst, rfl⟩
  · exact h.release trivial rfl
  · exact h.unclaim (by rw [hw]; rfl) trivial rfl nofun (h.not_mem_txnDependency (by simp [hst]))

theorem Invariant.setExecutedStatus_ok (h : Invariant s ws) {w i k : Nat}
    (hw : ws w = .executing i k) : ∃ s', s.setExecutedStatus i k = .ok s' := by
  have hA := h.agrees w
  rw [hw] at hA
  rcases hA.2 with ⟨t, hst⟩ | hst
  · exact ⟨_, Scheduler.setExecutedStatus_eq_ok.mpr (.inr ⟨t, hst, rfl⟩)⟩
  · exact ⟨_, Scheduler.setExecutedStatus_eq_ok.mpr (.inl ⟨hst, rfl⟩)⟩

/-- `set_aborted_status` by the worker that aborted the incarnation, which then moves on. -/
theorem Invariant.setAbortedStatus (h : Invariant s ws) {w i k : Nat}
    (hw : ws w = .aborting i k) (h₁ : s.setAbortedStatus i k = .ok s') :
    Invariant s' (Function.update ws w .retry) := by
  rcases Scheduler.setAbortedStatus_eq_ok.mp h₁ with ⟨-, rfl⟩ | ⟨hst, rfl⟩
  · exact h.release trivial rfl
  · exact h.unclaim (by rw [hw]; rfl) trivial rfl nofun (h.not_mem_txnDependency (by simp [hst]))

theorem Invariant.setAbortedStatus_ok (h : Invariant s ws) {w i k : Nat}
    (hw : ws w = .aborting i k) : ∃ s', s.setAbortedStatus i k = .ok s' := by
  have hA := h.agrees w
  rw [hw] at hA
  rcases hA.2 with hst | hst
  · exact ⟨_, Scheduler.setAbortedStatus_eq_ok.mpr (.inr ⟨hst, rfl⟩)⟩
  · exact ⟨_, Scheduler.setAbortedStatus_eq_ok.mpr (.inl ⟨hst, rfl⟩)⟩

/-! ### One call of a worker -/

theorem Invariant.nextTask (h : Invariant s ws) {w : Nat} {o : CallOutput}
    (hc : s.call .nextTask = .ok (o, s')) :
    Invariant s' (Function.update ws w (WorkerState.ofOutput o)) := by
  obtain ⟨r, hnext, rfl⟩ := Scheduler.call_nextTask_eq_ok.mp hc
  obtain ⟨vi, ei, ⟨hr, rfl⟩ | ⟨i, k, t, hi, hst, rfl, rfl⟩⟩ := Scheduler.nextTaskIteration_spec hnext
  · -- a validation task, a retry, done, or another round of the loop
    have hW : (WorkerState.ofOutput (.task r)).Agrees s ∧
        (WorkerState.ofOutput (.task r)).owner? = none := by
      rcases r with _ | ⟨i, k, t⟩ | ⟨i, k, wave⟩ | _ | _
      · exact ⟨trivial, rfl⟩
      · exact absurd rfl (hr i k t)
      · exact ⟨(Scheduler.nextTaskIteration_validationTask hnext rfl).1, rfl⟩
      · exact ⟨trivial, rfl⟩
      · exact ⟨trivial, rfl⟩
    exact (h.release hW.1 hW.2).of_core rfl rfl rfl rfl rfl
  · exact (h.incarnate hi hst).of_core rfl rfl rfl rfl rfl

theorem Invariant.tryAbort (h : Invariant s ws) {w i k wave : Nat} {o : CallOutput}
    (hw : ws w = .validating i k wave) (hc : s.call (.tryAbort i k) = .ok (o, s')) :
    Invariant s' (Function.update ws w (WorkerState.afterTryAbort i k wave o)) := by
  obtain ⟨b, habort, rfl⟩ := Scheduler.call_tryAbort_eq_ok.mp hc
  rcases Scheduler.tryAbort_spec habort with ⟨rfl, rfl⟩ | ⟨rfl, hst, rfl⟩
  · exact h.release trivial rfl
  · -- `Executed(k)` becomes `Aborting(k)`, which the validator then works on
    have hi : i < s.numTxns := h.agrees_of hw
    exact h.claim (by rw [hst]; trivial) rfl
      (by
        delta WorkerState.afterTryAbort WorkerState.Agrees
        dsimp only
        simpa using hi)
      nofun nofun

theorem Invariant.finishValidation (h : Invariant s ws) {w i wave : Nat} {o : CallOutput}
    (hc : s.call (.finishValidation i wave) = .ok (o, s')) :
    Invariant s' (Function.update ws w .retry) := by
  obtain ⟨rfl, -⟩ := Scheduler.call_finishValidation_eq_ok.mp hc
  obtain ⟨vs, hvs⟩ := Scheduler.finishValidation_eq (s := s) i wave
  rw [hvs]
  exact (h.release (W := .retry) trivial rfl).of_core rfl rfl rfl rfl rfl

theorem Invariant.finishAbort (h : Invariant s ws) {w i k : Nat} {o : CallOutput}
    (hw : ws w = .aborting i k) (hc : s.call (.finishAbort i k) = .ok (o, s')) :
    Invariant s' (Function.update ws w (WorkerState.ofOutput o)) := by
  obtain ⟨task, habort, rfl⟩ := Scheduler.call_finishAbort_eq_ok.mp hc
  obtain ⟨s₂, h₂, vs, vi, ⟨rfl, rfl⟩ | ⟨k', t, hinc, rfl⟩⟩ := Scheduler.finishAbort_spec habort
  · exact (h.setAbortedStatus hw h₂).of_core rfl rfl rfl rfl rfl
  · -- the next incarnation is handed straight back to the worker
    rcases Scheduler.tryIncarnate_spec hinc with ⟨hnone, -⟩ | ⟨k'', t', hi, hst, hsome, rfl⟩
    · cases hnone
    · simp only [Option.some.injEq, Prod.mk.injEq] at hsome
      obtain ⟨rfl, rfl⟩ := hsome
      have h₃ : Invariant { s₂ with validationStatus := vs, validationIdx := vi }
          (Function.update ws w .retry) :=
        (h.setAbortedStatus hw h₂).of_core rfl rfl rfl rfl rfl
      have := h₃.incarnate (w := w) hi hst
      rwa [Function.update_idem] at this

theorem Invariant.finishExecution (h : Invariant s ws) {w i k : Nat} {revalidateSuffix : Bool}
    {o : CallOutput} (hw : ws w = .executing i k)
    (hc : s.call (.finishExecution i k revalidateSuffix) = .ok (o, s')) :
    Invariant s' (Function.update ws w (WorkerState.ofOutput o)) := by
  obtain ⟨task, hfinish, rfl⟩ := Scheduler.call_finishExecution_eq_ok.mp hc
  obtain ⟨s₂, s₃, h₂, h₃, ⟨vs, vi, rfl⟩, htask⟩ := Scheduler.finishExecution_spec hfinish
  have hinv : Invariant { s₃ with validationStatus := vs, validationIdx := vi }
      (Function.update ws w .retry) :=
    ((h.setExecutedStatus hw h₂).wakeDependenciesAfterExecution h₃).of_core rfl rfl rfl rfl rfl
  have hn : s₃.numTxns = s.numTxns := by
    obtain ⟨_, _, rfl, -⟩ := Scheduler.wakeDependenciesAfterExecution_spec h₃
    rcases Scheduler.setExecutedStatus_eq_ok.mp h₂ with ⟨-, rfl⟩ | ⟨-, -, rfl⟩ <;> rfl
  have hi : i < s.numTxns := by
    have hA := h.agrees w
    rw [hw] at hA
    exact hA.1
  -- the validation task handed back is of the transaction just executed
  have hA : (WorkerState.ofOutput (.task (some task))).Agrees
      { s₃ with validationStatus := vs, validationIdx := vi } := by
    rcases htask with rfl | ⟨wave, rfl⟩
    · trivial
    · exact hn ▸ hi
  have := hinv.release (w := w) hA (by rcases htask with rfl | ⟨wave, rfl⟩ <;> rfl)
  rwa [Function.update_idem] at this

theorem Invariant.waitForDependency (h : Invariant s ws) {w i k d : Nat} {o : CallOutput}
    (hw : ws w = .executing i k) (hc : s.call (.waitForDependency i d) = .ok (o, s')) :
    Invariant s' (Function.update ws w (WorkerState.afterWaitForDependency i k o)) := by
  obtain ⟨r, hwait, rfl⟩ := Scheduler.call_waitForDependency_eq_ok.mp hc
  obtain ⟨-, -, ⟨hr, rfl⟩ | ⟨k', t, hst, rfl, rfl⟩⟩ := Scheduler.waitForDependency_spec hwait
  · -- resolved, or halted: the worker goes on executing
    have hnext : WorkerState.afterWaitForDependency i k (.dependency r) = .executing i k := by
      rcases hr with rfl | ⟨rfl, -⟩ <;> rfl
    rw [hnext, ← hw, Function.update_eq_self]
    exact h.withFreshCondvar
  · have hk : k' = k := by
      have hA := h.agrees w
      rw [hw] at hA
      rcases hA.2 with ⟨t', hst'⟩ | hst' <;> rw [hst'] at hst <;> simp_all
    subst hk
    exact h.suspend hw hst

theorem Invariant.tryCommit (h : Invariant s ws) {o : CallOutput}
    (hc : s.call .tryCommit = .ok (o, s')) : Invariant s' ws := by
  obtain ⟨r, hcommit, -⟩ := Scheduler.call_tryCommit_eq_ok.mp hc
  rcases Scheduler.tryCommit_spec hcommit with ⟨-, cs, rfl⟩ | ⟨k, -, hst, -, cs, dm, rfl⟩
  · exact h.of_core rfl rfl rfl rfl rfl
  · -- `Executed(k)` becomes `Committed(k)`: nobody works on either
    have hnobody : ∀ w, (ws w).owner? ≠ some s.commitState.1 :=
      fun w => h.unowned _ w (by rw [hst]; trivial)
    exact (h.setExecutionStatus (fun w hw => absurd hw (hnobody w)) (fun _ => hnobody)
      (fun _ hcv => by cases hcv)
      (fun d hd => absurd hd (h.not_mem_txnDependency (by simp [hst]) d))).of_core
      rfl rfl rfl rfl rfl

theorem Invariant.wakeDependenciesAndDecreaseValidationIdx (h : Invariant s ws) {i : Nat}
    {o : CallOutput} (hc : s.call (.wakeDependenciesAndDecreaseValidationIdx i) = .ok (o, s')) :
    Invariant s' ws := by
  obtain ⟨hwake, -⟩ := Scheduler.call_wakeDependenciesAndDecreaseValidationIdx_eq_ok.mp hc
  obtain ⟨s₂, h₂, vs, vi, rfl⟩ := Scheduler.wakeDependenciesAndDecreaseValidationIdx_spec hwake
  exact (h.wakeDependenciesAfterExecution h₂).of_core rfl rfl rfl rfl rfl

theorem Invariant.callHalt (h : Invariant s ws) {o : CallOutput}
    (hc : s.call .halt = .ok (o, s')) : Invariant s' ws := by
  obtain ⟨b, hhalt, -⟩ := Scheduler.call_halt_eq_ok.mp hc
  cases hdone : s.doneMarker
  · obtain ⟨condvars, hhalt'⟩ := Scheduler.halt_of_not_doneMarker hdone
    rw [hhalt, Prod.mk.injEq] at hhalt'
    rw [hhalt'.2]
    exact h.halt condvars
  · rw [Scheduler.halt_of_doneMarker hdone, Prod.mk.injEq] at hhalt
    rw [← hhalt.2]
    exact h.of_core rfl rfl rfl rfl rfl

/-- A waiting worker wakes up once its condition variable is set: its incarnation was woken, or
halted. -/
theorem Invariant.wake (h : Invariant s ws) {w i k cv : Nat} (hw : ws w = .waiting i k cv)
    (hcv : s.condvars cv ≠ .unresolved) : Invariant s (Function.update ws w (.executing i k)) := by
  have hA := h.agrees w
  rw [hw] at hA
  have hawaits : ¬ (s.executionStatus i).Awaits cv := fun ha => hcv (h.awaits_unresolved i cv ha)
  refine h.setWorker ⟨hA.1, ?_⟩ fun j hj => .inl (by rw [hw]; exact hj)
  rcases hA.2 with hst | hst | hst | hst
  · exact absurd (by rw [hst]; rfl) hawaits
  · exact absurd (by rw [hst]; rfl) hawaits
  · exact .inl ⟨_, hst⟩
  · exact .inr hst

/-- The worker holding a wakeup resolves its condition variable, which nothing awaits. -/
theorem Invariant.notify (h : Invariant s ws) {w cv : Nat} (hw : ws w = .waking cv) :
    Invariant { s with condvars := Function.update s.condvars cv .resolved }
      (Function.update ws w .retry) := by
  have hA := h.agrees w
  rw [hw] at hA
  exact (h.release (W := .retry) trivial rfl).setCondvar hA.2 .resolved

end Invariant

/-! ## Runs of the workers -/

section Runs

variable {e e' : ParallelExecution} {w : Nat}

theorem callScheduler_eq_ok {c : SchedulerCall} {next : CallOutput → WorkerState}
    (h : e.callScheduler w c next = .ok e') :
    ∃ o s', e.scheduler.call c = .ok (o, s') ∧ e' = ⟨s', Function.update e.workers w (next o)⟩ := by
  unfold callScheduler at h
  rcases hc : e.scheduler.call c with _ | ⟨o, s'⟩
  · simp [hc] at h
  · simp only [hc, Except.ok_map, Except.ok.injEq] at h
    exact ⟨o, s', rfl, h.symm⟩

theorem callScheduler_ok {c : SchedulerCall} {next : CallOutput → WorkerState}
    (h : ∃ o s', e.scheduler.call c = .ok (o, s')) : ∃ e', e.callScheduler w c next = .ok e' := by
  obtain ⟨o, s', hc⟩ := h
  exact ⟨⟨s', Function.update e.workers w (next o)⟩, by unfold callScheduler; rw [hc]; rfl⟩

/-- Every action keeps the invariant. -/
theorem Invariant.step {a : WorkerAction} (h : Invariant e.scheduler e.workers)
    (hstep : e.step w a = some (.ok e')) : Invariant e'.scheduler e'.workers := by
  -- the action picks a branch of `step`; the worker's state picks the arm of its match
  delta ParallelExecution.step at hstep
  cases a with
  | nextTask =>
    cases hw : e.workers w <;> rw [hw] at hstep <;>
      simp only [reduceCtorEq, Option.some.injEq] at hstep
    obtain ⟨o, s', hc, rfl⟩ := callScheduler_eq_ok hstep
    exact h.nextTask hc
  | validate valid =>
    cases hw : e.workers w <;> rw [hw] at hstep <;> simp only [reduceCtorEq] at hstep
    case validating i k wave =>
      cases valid
      · simp only [Bool.false_eq_true, ↓reduceIte, Option.some.injEq] at hstep
        obtain ⟨o, s', hc, rfl⟩ := callScheduler_eq_ok hstep
        exact h.tryAbort hw hc
      · simp only [↓reduceIte, Option.some.injEq, Except.ok.injEq] at hstep
        subst hstep
        exact h.release trivial rfl
  | finishValidation =>
    cases hw : e.workers w <;> rw [hw] at hstep <;>
      simp only [reduceCtorEq, Option.some.injEq] at hstep
    obtain ⟨o, s', hc, rfl⟩ := callScheduler_eq_ok hstep
    exact h.finishValidation hc
  | finishAbort =>
    cases hw : e.workers w <;> rw [hw] at hstep <;>
      simp only [reduceCtorEq, Option.some.injEq] at hstep
    obtain ⟨o, s', hc, rfl⟩ := callScheduler_eq_ok hstep
    exact h.finishAbort hw hc
  | waitForDependency d =>
    cases hw : e.workers w <;> rw [hw] at hstep <;> simp only [reduceCtorEq] at hstep
    case executing i k =>
      split at hstep
      · simp only [Option.some.injEq] at hstep
        obtain ⟨o, s', hc, rfl⟩ := callScheduler_eq_ok hstep
        exact h.waitForDependency hw hc
      · cases hstep
  | finishExecution revalidateSuffix =>
    cases hw : e.workers w <;> rw [hw] at hstep <;>
      simp only [reduceCtorEq, Option.some.injEq] at hstep
    obtain ⟨o, s', hc, rfl⟩ := callScheduler_eq_ok hstep
    exact h.finishExecution hw hc
  | wake =>
    cases hw : e.workers w <;> rw [hw] at hstep <;> simp only [reduceCtorEq] at hstep
    case waiting i k cv =>
      split at hstep
      · cases hstep
      · rename_i hcv
        simp only [Option.some.injEq, Except.ok.injEq] at hstep
        subst hstep
        exact h.wake hw hcv
  | notify =>
    cases hw : e.workers w <;> rw [hw] at hstep <;>
      simp only [reduceCtorEq, Option.some.injEq, Except.ok.injEq] at hstep
    subst hstep
    exact h.notify hw
  | tryCommit =>
    dsimp only at hstep
    rw [Option.some.injEq] at hstep
    obtain ⟨o, s', hc, rfl⟩ := callScheduler_eq_ok hstep
    show Invariant s' (Function.update e.workers w (e.workers w))
    rw [Function.update_eq_self]
    exact h.tryCommit hc
  | wakeDependenciesAndDecreaseValidationIdx i =>
    dsimp only at hstep
    split at hstep
    · simp only [Option.some.injEq] at hstep
      obtain ⟨o, s', hc, rfl⟩ := callScheduler_eq_ok hstep
      show Invariant s' (Function.update e.workers w (e.workers w))
      rw [Function.update_eq_self]
      exact h.wakeDependenciesAndDecreaseValidationIdx hc
    · cases hstep
  | halt =>
    dsimp only at hstep
    rw [Option.some.injEq] at hstep
    obtain ⟨o, s', hc, rfl⟩ := callScheduler_eq_ok hstep
    show Invariant s' (Function.update e.workers w (e.workers w))
    rw [Function.update_eq_self]
    exact h.callHalt hc

/-- Under the invariant no action returns a `PanicError`. -/
theorem Invariant.step_ok {a : WorkerAction} {r : Except PanicError ParallelExecution}
    (h : Invariant e.scheduler e.workers) (hstep : e.step w a = some r) : ∃ e', r = .ok e' := by
  delta ParallelExecution.step at hstep
  have hcall : ∀ {c : SchedulerCall} {next : CallOutput → WorkerState},
      (∃ o s', e.scheduler.call c = .ok (o, s')) → e.callScheduler w c next = r →
        ∃ e', r = .ok e' := by
    intro c next hc hr
    have hok : ∃ e', e.callScheduler w c next = .ok e' := callScheduler_ok hc
    obtain ⟨e', he'⟩ := hok
    exact ⟨e', hr ▸ he'⟩
  cases a with
  | nextTask =>
    cases hw : e.workers w <;> rw [hw] at hstep <;>
      simp only [reduceCtorEq, Option.some.injEq] at hstep
    rcases hnext : e.scheduler.nextTaskIteration with ⟨t, s'⟩
    exact hcall ⟨.task t, s', Scheduler.call_nextTask_eq_ok.mpr ⟨t, hnext, rfl⟩⟩ hstep
  | validate valid =>
    cases hw : e.workers w <;> rw [hw] at hstep <;> simp only [reduceCtorEq] at hstep
    case validating i k wave =>
      cases valid
      · simp only [Bool.false_eq_true, ↓reduceIte, Option.some.injEq] at hstep
        rcases habort : e.scheduler.tryAbort i k with ⟨b, s'⟩
        exact hcall ⟨.aborted b, s', Scheduler.call_tryAbort_eq_ok.mpr ⟨b, habort, rfl⟩⟩ hstep
      · simp only [↓reduceIte, Option.some.injEq] at hstep
        exact ⟨_, hstep.symm⟩
  | finishValidation =>
    cases hw : e.workers w <;> rw [hw] at hstep <;>
      simp only [reduceCtorEq, Option.some.injEq] at hstep
    exact hcall ⟨_, _, rfl⟩ hstep
  | finishAbort =>
    cases hw : e.workers w <;> rw [hw] at hstep <;>
      simp only [reduceCtorEq, Option.some.injEq] at hstep
    case aborting i k =>
      obtain ⟨s₁, h₁⟩ := h.setAbortedStatus_ok hw
      obtain ⟨task, s', hok⟩ := Scheduler.finishAbort_ok h₁
      exact hcall ⟨.task (some task), s', Scheduler.call_finishAbort_eq_ok.mpr ⟨task, hok, rfl⟩⟩ hstep
  | waitForDependency d =>
    cases hw : e.workers w <;> rw [hw] at hstep <;> simp only [reduceCtorEq] at hstep
    case executing i k =>
      split at hstep
      · rename_i hd
        simp only [Option.some.injEq] at hstep
        have hA := h.agrees_of hw
        obtain ⟨r', s', hok⟩ := Scheduler.waitForDependency_ok hd hA.1
          (hA.2.imp_left fun hex => ⟨k, hex⟩)
        exact hcall ⟨.dependency r', s', Scheduler.call_waitForDependency_eq_ok.mpr ⟨r', hok, rfl⟩⟩
          hstep
      · cases hstep
  | finishExecution revalidateSuffix =>
    cases hw : e.workers w <;> rw [hw] at hstep <;>
      simp only [reduceCtorEq, Option.some.injEq] at hstep
    case executing i k =>
      -- the dependencies can be woken in the state `set_executed_status` leaves
      obtain ⟨s₁, h₁⟩ := h.setExecutedStatus_ok hw
      obtain ⟨s₂, h₂, -⟩ := (h.setExecutedStatus hw h₁).wakeDependenciesAfterExecution_ok i
      have hok : ∃ task s', e.scheduler.finishExecution i k revalidateSuffix = .ok (task, s') :=
        Scheduler.finishExecution_ok h₁ h₂
      obtain ⟨task, s', hok⟩ := hok
      exact hcall ⟨.task (some task), s', Scheduler.call_finishExecution_eq_ok.mpr ⟨task, hok, rfl⟩⟩
        hstep
  | wake =>
    cases hw : e.workers w <;> rw [hw] at hstep <;> simp only [reduceCtorEq] at hstep
    case waiting i k cv =>
      split at hstep
      · cases hstep
      · simp only [Option.some.injEq] at hstep
        exact ⟨_, hstep.symm⟩
  | notify =>
    cases hw : e.workers w <;> rw [hw] at hstep <;>
      simp only [reduceCtorEq, Option.some.injEq] at hstep
    exact ⟨_, hstep.symm⟩
  | tryCommit =>
    dsimp only at hstep
    rw [Option.some.injEq] at hstep
    rcases hcommit : e.scheduler.tryCommit with ⟨t, s'⟩
    exact hcall ⟨.committed t, s', Scheduler.call_tryCommit_eq_ok.mpr ⟨t, hcommit, rfl⟩⟩ hstep
  | wakeDependenciesAndDecreaseValidationIdx i =>
    dsimp only at hstep
    split at hstep
    · simp only [Option.some.injEq] at hstep
      obtain ⟨s₁, h₁, -⟩ := h.wakeDependenciesAfterExecution_ok i
      obtain ⟨s', hok⟩ := Scheduler.wakeDependenciesAndDecreaseValidationIdx_ok h₁
      exact hcall ⟨.unit, s',
        Scheduler.call_wakeDependenciesAndDecreaseValidationIdx_eq_ok.mpr ⟨hok, rfl⟩⟩ hstep
    · cases hstep
  | halt =>
    dsimp only at hstep
    rw [Option.some.injEq] at hstep
    rcases hhalt : e.scheduler.halt with ⟨b, s'⟩
    exact hcall ⟨.halted b, s', Scheduler.call_halt_eq_ok.mpr ⟨b, hhalt, rfl⟩⟩ hstep

/-- Every reachable state satisfies the invariant. -/
theorem Reachable.invariant (he : Reachable e) : Invariant e.scheduler e.workers := by
  induction he with
  | init hnew => exact Invariant.init hnew
  | step _ hstep ih => exact ih.step hstep

/-- A reachable state steps without a `PanicError`. -/
theorem Reachable.step_ok {a : WorkerAction} {r : Except PanicError ParallelExecution}
    (he : Reachable e) (hstep : e.step w a = some r) : ∃ e', r = .ok e' :=
  he.invariant.step_ok hstep

end Runs

end ParallelExecution

/-- The execution-status protocol.  Along any run of atomic calls an incarnation never decreases,
and only `finish_abort` raises it, from `Aborting(k)` to `k + 1`; no version is handed out twice
for execution, nor aborted twice by `try_abort`; a committed status stays committed or is halted, a
halted one stays halted, and only `halt` halts.  Workers that only report on the versions they
were handed never meet a `PanicError`. -/
theorem executionStatus_protocol :
    (∀ (s s' : Scheduler) (calls : List SchedulerCall) (outputs : List CallOutput),
      s.runCalls calls = .ok (outputs, s') → ∀ i k k',
        (s.executionStatus i).incarnation? = some k →
        (s'.executionStatus i).incarnation? = some k' → k ≤ k') ∧
    (∀ (s s' : Scheduler) (c : SchedulerCall) (o : CallOutput), s.call c = .ok (o, s') →
      ∀ i k k', (s.executionStatus i).incarnation? = some k →
        (s'.executionStatus i).incarnation? = some k' → k ≠ k' →
          c = .finishAbort i k ∧ s.executionStatus i = .aborting k ∧ k' = k + 1) ∧
    (∀ (s s' : Scheduler) (calls : List SchedulerCall) (outputs : List CallOutput),
      s.runCalls calls = .ok (outputs, s') →
        (outputs.filterMap Scheduler.CallOutput.handedExecution?).Nodup ∧
        ((calls.zip outputs).filterMap Scheduler.abortSucceeded?).Nodup) ∧
    (∀ (s s' : Scheduler) (calls : List SchedulerCall) (outputs : List CallOutput),
      s.runCalls calls = .ok (outputs, s') → ∀ i,
        (∀ k, s.executionStatus i = .committed k →
          s'.executionStatus i = .committed k ∨ s'.executionStatus i = .executionHalted) ∧
        (s.executionStatus i = .executionHalted → s'.executionStatus i = .executionHalted)) ∧
    (∀ (s s' : Scheduler) (c : SchedulerCall) (o : CallOutput), s.call c = .ok (o, s') →
      ∀ i, s.executionStatus i ≠ .executionHalted → s'.executionStatus i = .executionHalted →
        c = .halt) ∧
    (∀ e, ParallelExecution.Reachable e → ∀ w a r, e.step w a = some r → ∃ e', r = .ok e') := by
  refine ⟨?incarnation, ?finishAbort, ?once, ?final, ?halt, ?noPanic⟩
  case incarnation =>
    intro s s' calls outputs h i k k' hk hk'
    rcases (Scheduler.runCalls_statusSteps h i).incarnation_le hk with hhalt | ⟨k'', hk'', hle⟩
    · rw [hhalt] at hk'
      cases hk'
    · rw [hk', Option.some.injEq] at hk''
      exact hk'' ▸ hle
  case finishAbort =>
    exact fun s s' c o h i k k' hk hk' hne => Scheduler.call_incarnation_change h hk hk' hne
  case once =>
    exact fun s s' calls outputs h =>
      ⟨Scheduler.runCalls_handedExecutions_nodup h, Scheduler.runCalls_successfulAborts_nodup h⟩
  case final =>
    intro s s' calls outputs h i
    have hpath := Scheduler.runCalls_statusSteps h i
    refine ⟨fun k hk => ?_, fun hhalt => ?_⟩
    · rw [hk] at hpath
      exact hpath.of_committed
    · rw [hhalt] at hpath
      exact hpath.of_halted
  case halt => exact fun s s' c o h i hst hst' => Scheduler.call_halted h hst hst'
  case noPanic => exact fun e he w a r hstep => he.step_ok hstep

end CreditChain
