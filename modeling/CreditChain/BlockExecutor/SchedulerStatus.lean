import CreditChain.BlockExecutor.Scheduler
import Mathlib.Data.List.Nodup
import Mathlib.Logic.Relation

/-!
# Execution status transitions

The transition diagram of `ExecutionStatus` in `scheduler.rs`, as a relation: `WorkTransition` has
the arrows that keep the incarnation, `StatusTransition` adds `set_aborted_status`
(`Aborting(k) → Ready(k + 1)`) and halting.  `call_cases` says what one atomic call of the
scheduler does to the statuses, from any state and with any arguments: it moves every status along
arrows that keep the incarnation, or it is `halt`, or it is the `finish_abort` that starts the next
incarnation.  Along every run (`runCalls_statusSteps`) each status therefore follows the diagram:
incarnations never decrease (`StatusPath.incarnation_le`), a committed transaction can only be
halted and a halted one never changes (`StatusPath.of_committed`, `StatusPath.of_halted`).

Two histories of a run have no repetitions: the versions handed out for a fresh execution
(`runCalls_handedExecutions_nodup`) and the versions `try_abort` succeeded on
(`runCalls_successfulAborts_nodup`).  Each rests on a property of a status that every transition
keeps (`Incarnated`, `Aborted`).
-/

namespace CreditChain

/-- The arrows of the status diagram that keep the incarnation, each named by the function that
takes it. -/
inductive WorkTransition : ExecutionStatus → ExecutionStatus → Prop
  | tryIncarnate {k : Nat} {t : ExecutionTaskType} : WorkTransition (.ready k t) (.executing k t)
  | suspend {k : Nat} {t : ExecutionTaskType} {condvar : Nat} :
      WorkTransition (.executing k t) (.suspended k condvar)
  | resume {k condvar : Nat} : WorkTransition (.suspended k condvar) (.ready k (.wakeup condvar))
  | setExecuted {k : Nat} {t : ExecutionTaskType} : WorkTransition (.executing k t) (.executed k)
  | tryAbort {k : Nat} : WorkTransition (.executed k) (.aborting k)
  | commit {k : Nat} : WorkTransition (.executed k) (.committed k)

/-- Every arrow of the diagram: those keeping the incarnation, `set_aborted_status` starting the
next one, and `halt_transaction_execution`. -/
inductive StatusTransition : ExecutionStatus → ExecutionStatus → Prop
  | work {a b : ExecutionStatus} : WorkTransition a b → StatusTransition a b
  | setAborted {k : Nat} : StatusTransition (.aborting k) (.ready (k + 1) .execution)
  | halt {a : ExecutionStatus} : StatusTransition a .executionHalted

/-- Paths of arrows that keep the incarnation. -/
abbrev WorkPath := Relation.ReflTransGen WorkTransition

/-- Paths in the status diagram. -/
abbrev StatusPath := Relation.ReflTransGen StatusTransition

/-- The incarnation a status records; `ExecutionHalted` records none. -/
def ExecutionStatus.incarnation? : ExecutionStatus → Option Nat
  | .ready k _ | .executing k _ | .suspended k _ | .executed k | .committed k | .aborting k => some k
  | .executionHalted => none

namespace ExecutionStatus

@[simp] theorem incarnation?_ready (k : Nat) (t : ExecutionTaskType) :
    (ready k t).incarnation? = some k := rfl

@[simp] theorem incarnation?_executing (k : Nat) (t : ExecutionTaskType) :
    (executing k t).incarnation? = some k := rfl

@[simp] theorem incarnation?_suspended (k condvar : Nat) :
    (suspended k condvar).incarnation? = some k := rfl

@[simp] theorem incarnation?_executed (k : Nat) : (executed k).incarnation? = some k := rfl

@[simp] theorem incarnation?_committed (k : Nat) : (committed k).incarnation? = some k := rfl

@[simp] theorem incarnation?_aborting (k : Nat) : (aborting k).incarnation? = some k := rfl

@[simp] theorem incarnation?_executionHalted : executionHalted.incarnation? = none := rfl

end ExecutionStatus

section Transitions

variable {a b : ExecutionStatus} {k : Nat}

theorem WorkTransition.incarnation (h : WorkTransition a b) :
    b.incarnation? = a.incarnation? ∧ a ≠ .executionHalted ∧ b ≠ .executionHalted := by
  cases h <;> simp

theorem WorkPath.incarnation (h : WorkPath a b) : b.incarnation? = a.incarnation? := by
  induction h with
  | refl => rfl
  | tail _ hbc ih => rw [hbc.incarnation.1, ih]

/-- Only halting reaches `ExecutionHalted`. -/
theorem WorkPath.ne_halted (h : WorkPath a b) (ha : a ≠ .executionHalted) :
    b ≠ .executionHalted := by
  induction h with
  | refl => exact ha
  | tail _ hbc _ => exact hbc.incarnation.2.2

theorem WorkPath.statusPath (h : WorkPath a b) : StatusPath a b := by
  induction h with
  | refl => exact .refl
  | tail _ hbc ih => exact ih.tail (.work hbc)

theorem StatusTransition.of_halted (h : StatusTransition .executionHalted b) :
    b = .executionHalted := by
  rcases h with ⟨h⟩ | _ | _
  · exact absurd rfl h.incarnation.2.1
  · rfl

theorem StatusPath.of_halted (h : StatusPath .executionHalted b) : b = .executionHalted := by
  induction h with
  | refl => rfl
  | tail _ hbc ih => subst ih; exact hbc.of_halted

theorem StatusPath.of_committed (h : StatusPath (.committed k) b) :
    b = .committed k ∨ b = .executionHalted := by
  induction h with
  | refl => exact .inl rfl
  | tail _ hbc ih =>
    rcases ih with rfl | rfl
    · rcases hbc with ⟨h⟩ | _ | _
      · cases h
      · exact .inr rfl
    · exact .inr hbc.of_halted

theorem StatusTransition.incarnation_le (h : StatusTransition a b)
    (ha : a.incarnation? = some k) :
    b = .executionHalted ∨ ∃ k', b.incarnation? = some k' ∧ k ≤ k' := by
  rcases h with ⟨h⟩ | _ | _
  · exact .inr ⟨k, h.incarnation.1 ▸ ha, Nat.le_refl _⟩
  · simp only [ExecutionStatus.incarnation?_aborting, Option.some.injEq] at ha
    exact .inr ⟨_, rfl, by omega⟩
  · exact .inl rfl

/-- Along the diagram an incarnation never decreases, until the transaction is halted. -/
theorem StatusPath.incarnation_le (h : StatusPath a b) (ha : a.incarnation? = some k) :
    b = .executionHalted ∨ ∃ k', b.incarnation? = some k' ∧ k ≤ k' := by
  induction h with
  | refl => exact .inr ⟨k, ha, Nat.le_refl _⟩
  | tail _ hbc ih =>
    rcases ih with rfl | ⟨k', hk', hle⟩
    · exact .inl hbc.of_halted
    · rcases hbc.incarnation_le hk' with hb | ⟨k'', hk'', hle'⟩
      · exact .inl hb
      · exact .inr ⟨k'', hk'', Nat.le_trans hle hle'⟩

/-- Incarnation `k` has been handed out: the status is past `Ready(k, Execution)` for good. -/
def Incarnated (k : Nat) (b : ExecutionStatus) : Prop :=
  b = .executionHalted ∨ (b.incarnation? = some k ∧ b ≠ .ready k .execution) ∨
    ∃ k', b.incarnation? = some k' ∧ k < k'

theorem StatusTransition.incarnated (h : StatusTransition a b) (ha : Incarnated k a) :
    Incarnated k b := by
  rcases h with ⟨h⟩ | _ | _
  · rcases ha with ha | ⟨hk, hne⟩ | ⟨k', hk', hlt⟩
    · exact absurd ha h.incarnation.2.1
    · -- only `try_incarnate` leaves a ready status, and it leaves it for `Executing`
      refine .inr (.inl ⟨h.incarnation.1 ▸ hk, ?_⟩)
      cases h <;> simp_all
    · exact .inr (.inr ⟨k', h.incarnation.1 ▸ hk', hlt⟩)
  · -- `set_aborted_status` moves on to a higher incarnation
    refine .inr (.inr ⟨_, rfl, ?_⟩)
    rcases ha with ha | ⟨hk, -⟩ | ⟨k', hk', hlt⟩
    · cases ha
    · simp only [ExecutionStatus.incarnation?_aborting, Option.some.injEq] at hk
      omega
    · simp only [ExecutionStatus.incarnation?_aborting, Option.some.injEq] at hk'
      omega
  · exact .inl rfl

theorem StatusPath.incarnated (h : StatusPath a b) (ha : Incarnated k a) : Incarnated k b := by
  induction h with
  | refl => exact ha
  | tail _ hbc ih => exact hbc.incarnated ih

/-- Incarnation `k` has been aborted: the status is past `Executed(k)` for good. -/
def Aborted (k : Nat) (b : ExecutionStatus) : Prop :=
  b = .executionHalted ∨ b = .aborting k ∨ ∃ k', b.incarnation? = some k' ∧ k < k'

theorem StatusTransition.aborted (h : StatusTransition a b) (ha : Aborted k a) : Aborted k b := by
  rcases h with ⟨h⟩ | _ | _
  · rcases ha with ha | rfl | ⟨k', hk', hlt⟩
    · exact absurd ha h.incarnation.2.1
    · cases h
    · exact .inr (.inr ⟨k', h.incarnation.1 ▸ hk', hlt⟩)
  · refine .inr (.inr ⟨_, rfl, ?_⟩)
    rcases ha with ha | ha | ⟨k', hk', hlt⟩
    · cases ha
    · cases ha
      omega
    · simp only [ExecutionStatus.incarnation?_aborting, Option.some.injEq] at hk'
      omega
  · exact .inl rfl

theorem StatusPath.aborted (h : StatusPath a b) (ha : Aborted k a) : Aborted k b := by
  induction h with
  | refl => exact ha
  | tail _ hbc ih => exact hbc.aborted ih

end Transitions

namespace Scheduler

/-- Every execution status moves along arrows that keep its incarnation. -/
def WorkSteps (s s' : Scheduler) : Prop :=
  ∀ j, WorkPath (s.executionStatus j) (s'.executionStatus j)

/-- Every execution status moves along the diagram. -/
def StatusSteps (s s' : Scheduler) : Prop :=
  ∀ j, StatusPath (s.executionStatus j) (s'.executionStatus j)

section Steps

variable {s s' s'' : Scheduler}

theorem WorkSteps.of_eq (h : s'.executionStatus = s.executionStatus) : s.WorkSteps s' :=
  fun _ => h ▸ Relation.ReflTransGen.refl

theorem WorkSteps.trans (h₁ : s.WorkSteps s') (h₂ : s'.WorkSteps s'') : s.WorkSteps s'' :=
  fun j => (h₁ j).trans (h₂ j)

/-- One status takes one arrow and the others stay. -/
theorem WorkSteps.update {i : Nat} {status : ExecutionStatus}
    (ht : WorkTransition (s.executionStatus i) status)
    (h : s'.executionStatus = Function.update s.executionStatus i status) : s.WorkSteps s' := by
  intro j
  rw [h]
  by_cases hj : j = i
  · subst hj
    simpa using Relation.ReflTransGen.single ht
  · rw [Function.update_of_ne hj]

theorem WorkSteps.statusSteps (h : s.WorkSteps s') : s.StatusSteps s' :=
  fun j => (h j).statusPath

theorem StatusSteps.trans (h₁ : s.StatusSteps s') (h₂ : s'.StatusSteps s'') : s.StatusSteps s'' :=
  fun j => (h₁ j).trans (h₂ j)

/-! ### What each operation does to the statuses -/

theorem tryIncarnate_workSteps {i : Nat} {r : Option (Nat × ExecutionTaskType)}
    (h : s.tryIncarnate i = (r, s')) : s.WorkSteps s' := by
  rcases tryIncarnate_spec h with ⟨-, rfl⟩ | ⟨k, t, -, hst, -, rfl⟩
  · exact .of_eq rfl
  · exact .update (hst ▸ .tryIncarnate) rfl

theorem nextTaskIteration_workSteps {r : Option SchedulerTask}
    (h : s.nextTaskIteration = (r, s')) : s.WorkSteps s' := by
  obtain ⟨_, _, ⟨-, rfl⟩ | ⟨i, k, t, -, hst, -, rfl⟩⟩ := nextTaskIteration_spec h
  · exact .of_eq rfl
  · exact .update (hst ▸ .tryIncarnate) rfl

theorem tryAbort_workSteps {i k : Nat} {b : Bool} (h : s.tryAbort i k = (b, s')) :
    s.WorkSteps s' := by
  rcases tryAbort_spec h with ⟨-, rfl⟩ | ⟨-, hst, rfl⟩
  · exact .of_eq rfl
  · exact .update (hst ▸ .tryAbort) rfl

theorem tryCommit_workSteps {r : Option (Nat × Nat)} (h : s.tryCommit = (r, s')) :
    s.WorkSteps s' := by
  rcases tryCommit_spec h with ⟨-, _, rfl⟩ | ⟨k, -, hst, -, _, _, rfl⟩
  · exact .of_eq rfl
  · exact .update (hst ▸ .commit) rfl

theorem setExecutedStatus_workSteps {i k : Nat} (h : s.setExecutedStatus i k = .ok s') :
    s.WorkSteps s' := by
  rcases setExecutedStatus_eq_ok.mp h with ⟨-, rfl⟩ | ⟨t, hst, rfl⟩
  · exact .of_eq rfl
  · exact .update (hst ▸ .setExecuted) rfl

theorem wakeDependenciesAfterExecution_workSteps {i : Nat}
    (h : s.wakeDependenciesAfterExecution i = .ok s') : s.WorkSteps s' := by
  obtain ⟨executionStatus, _, rfl, hes⟩ := wakeDependenciesAfterExecution_spec h
  intro j
  show WorkPath (s.executionStatus j) (executionStatus j)
  rcases hes j with hj | ⟨-, k, condvar, hst, hj⟩
  · rw [hj]
  · rw [hst, hj]
    exact .single .resume

theorem finishExecution_workSteps {i k : Nat} {r : Bool} {task : SchedulerTask}
    (h : s.finishExecution i k r = .ok (task, s')) : s.WorkSteps s' := by
  obtain ⟨s₁, s₂, h₁, h₂, ⟨_, _, rfl⟩, -⟩ := finishExecution_spec h
  exact (setExecutedStatus_workSteps h₁).trans
    ((wakeDependenciesAfterExecution_workSteps h₂).trans (.of_eq rfl))

theorem wakeDependenciesAndDecreaseValidationIdx_workSteps {i : Nat}
    (h : s.wakeDependenciesAndDecreaseValidationIdx i = .ok s') : s.WorkSteps s' := by
  obtain ⟨s₁, h₁, _, _, rfl⟩ := wakeDependenciesAndDecreaseValidationIdx_spec h
  exact (wakeDependenciesAfterExecution_workSteps h₁).trans (.of_eq rfl)

theorem waitForDependency_workSteps {i d : Nat} {r : DependencyResult}
    (h : s.waitForDependency i d = .ok (r, s')) : s.WorkSteps s' := by
  obtain ⟨-, -, ⟨-, rfl⟩ | ⟨k, t, hst, -, rfl⟩⟩ := waitForDependency_spec h
  · exact .of_eq rfl
  · exact .update (hst ▸ .suspend) rfl

/-- `halt` leaves every status as it was or halted. -/
theorem halt_status {b : Bool} (h : s.halt = (b, s')) (j : Nat) :
    s'.executionStatus j = s.executionStatus j ∨ s'.executionStatus j = .executionHalted := by
  cases hdone : s.doneMarker
  · obtain ⟨condvars, hhalt⟩ := halt_of_not_doneMarker hdone
    rw [hhalt, Prod.mk.injEq] at h
    obtain ⟨-, rfl⟩ := h
    by_cases hj : j < s.numTxns <;> simp [hj]
  · rw [halt_of_doneMarker hdone, Prod.mk.injEq] at h
    obtain ⟨-, rfl⟩ := h
    exact .inl rfl

/-- `finish_abort` starts the next incarnation of its transaction and leaves the others. -/
theorem finishAbort_status {i k : Nat} {task : SchedulerTask}
    (h : s.finishAbort i k = .ok (task, s')) :
    (∀ j, j ≠ i → s'.executionStatus j = s.executionStatus j) ∧
      (s.executionStatus i = .executionHalted ∧ s'.executionStatus i = .executionHalted ∨
        s.executionStatus i = .aborting k ∧
          (s'.executionStatus i = .ready (k + 1) .execution ∨
            s'.executionStatus i = .executing (k + 1) .execution)) := by
  obtain ⟨s₁, h₁, vs, vi, ⟨-, rfl⟩ | ⟨k', t, hinc, -⟩⟩ := finishAbort_spec h
  · rcases setAbortedStatus_eq_ok.mp h₁ with ⟨hst, rfl⟩ | ⟨hst, rfl⟩
    · exact ⟨fun _ _ => rfl, .inl ⟨hst, hst⟩⟩
    · exact ⟨fun j hj => by simp [hj], .inr ⟨hst, .inl (by simp)⟩⟩
  · rcases tryIncarnate_spec hinc with ⟨hnone, -⟩ | ⟨k'', t', -, hst', -, rfl⟩
    · cases hnone
    · rcases setAbortedStatus_eq_ok.mp h₁ with ⟨hst, rfl⟩ | ⟨hst, rfl⟩
      · simp [hst] at hst'
      · simp only [setExecutionStatus_eq, Function.update_self, ExecutionStatus.ready.injEq] at hst'
        obtain ⟨rfl, rfl⟩ := hst'
        exact ⟨fun j hj => by simp [hj], .inr ⟨hst, .inr (by simp)⟩⟩

/-! ### One call, and runs -/

/-- What one atomic call does to the statuses: every status keeps its incarnation, or the call is
`halt`, or it is the `finish_abort` that starts the next incarnation of its transaction. -/
theorem call_cases {c : SchedulerCall} {o : CallOutput} (h : s.call c = .ok (o, s')) :
    s.WorkSteps s' ∨
      (c = .halt ∧ ∀ j, s'.executionStatus j = s.executionStatus j ∨
        s'.executionStatus j = .executionHalted) ∨
      ∃ i k, c = .finishAbort i k ∧
        (∀ j, j ≠ i → s'.executionStatus j = s.executionStatus j) ∧
        (s.executionStatus i = .executionHalted ∧ s'.executionStatus i = .executionHalted ∨
          s.executionStatus i = .aborting k ∧
            (s'.executionStatus i = .ready (k + 1) .execution ∨
              s'.executionStatus i = .executing (k + 1) .execution)) := by
  cases c with
  | tryCommit =>
    obtain ⟨r, hc, -⟩ := Iff.mp call_tryCommit_eq_ok h
    exact .inl (tryCommit_workSteps hc)
  | tryAbort i k =>
    obtain ⟨b, hc, -⟩ := Iff.mp call_tryAbort_eq_ok h
    exact .inl (tryAbort_workSteps hc)
  | nextTask =>
    obtain ⟨r, hc, -⟩ := Iff.mp call_nextTask_eq_ok h
    exact .inl (nextTaskIteration_workSteps hc)
  | finishValidation i w =>
    obtain ⟨rfl, -⟩ := Iff.mp call_finishValidation_eq_ok h
    exact .inl (.of_eq rfl)
  | finishExecution i k r =>
    obtain ⟨task, hc, -⟩ := Iff.mp call_finishExecution_eq_ok h
    exact .inl (finishExecution_workSteps hc)
  | wakeDependenciesAndDecreaseValidationIdx i =>
    obtain ⟨hc, -⟩ := Iff.mp call_wakeDependenciesAndDecreaseValidationIdx_eq_ok h
    exact .inl (wakeDependenciesAndDecreaseValidationIdx_workSteps hc)
  | finishAbort i k =>
    obtain ⟨task, hc, -⟩ := Iff.mp call_finishAbort_eq_ok h
    exact .inr (.inr ⟨i, k, rfl, finishAbort_status hc⟩)
  | halt =>
    obtain ⟨b, hc, -⟩ := Iff.mp call_halt_eq_ok h
    exact .inr (.inl ⟨rfl, halt_status hc⟩)
  | waitForDependency i d =>
    obtain ⟨r, hc, -⟩ := Iff.mp call_waitForDependency_eq_ok h
    exact .inl (waitForDependency_workSteps hc)

theorem call_statusSteps {c : SchedulerCall} {o : CallOutput} (h : s.call c = .ok (o, s')) :
    s.StatusSteps s' := by
  rcases call_cases h with hw | ⟨-, hhalt⟩ | ⟨i, k, -, hother, hi⟩
  · exact hw.statusSteps
  · intro j
    rcases hhalt j with hj | hj
    · rw [hj]
    · rw [hj]
      exact .single .halt
  · intro j
    by_cases hj : j = i
    · subst hj
      rcases hi with ⟨hst, hst'⟩ | ⟨hst, hst' | hst'⟩
      · rw [hst, hst']
      · rw [hst, hst']
        exact .single .setAborted
      · rw [hst, hst']
        exact (Relation.ReflTransGen.single .setAborted).tail (.work .tryIncarnate)
    · rw [hother j hj]

/-- Peel the first call off a run. -/
theorem runCalls_cons {c : SchedulerCall} {calls : List SchedulerCall} {outputs : List CallOutput}
    (h : s.runCalls (c :: calls) = .ok (outputs, s')) :
    ∃ o os s₁, outputs = o :: os ∧ s.call c = .ok (o, s₁) ∧ s₁.runCalls calls = .ok (os, s') := by
  rw [runCalls_cons_eq] at h
  obtain ⟨⟨o, s₁⟩, h₁, h⟩ := Except.bind_eq_ok.mp h
  obtain ⟨⟨os, s₂⟩, h₂, h⟩ := Except.bind_eq_ok.mp h
  simp only [Except.pure_eq_ok, Except.ok.injEq, Prod.mk.injEq] at h
  obtain ⟨rfl, rfl⟩ := h
  exact ⟨o, os, s₁, rfl, h₁, h₂⟩

/-- Along a run every status follows the diagram. -/
theorem runCalls_statusSteps {calls : List SchedulerCall} {outputs : List CallOutput}
    (h : s.runCalls calls = .ok (outputs, s')) : s.StatusSteps s' := by
  induction calls generalizing s outputs with
  | nil =>
    simp only [runCalls_nil, Except.ok.injEq, Prod.mk.injEq] at h
    obtain ⟨-, rfl⟩ := h
    exact fun _ => Relation.ReflTransGen.refl
  | cons c calls ih =>
    obtain ⟨o, os, s₁, -, h₁, h₂⟩ := runCalls_cons h
    exact (call_statusSteps h₁).trans (ih h₂)

/-- Only `finish_abort` changes an incarnation, from `Aborting(k)` to `k + 1`. -/
theorem call_incarnation_change {c : SchedulerCall} {o : CallOutput}
    (h : s.call c = .ok (o, s')) {i k k' : Nat}
    (hk : (s.executionStatus i).incarnation? = some k)
    (hk' : (s'.executionStatus i).incarnation? = some k') (hne : k ≠ k') :
    c = .finishAbort i k ∧ s.executionStatus i = .aborting k ∧ k' = k + 1 := by
  -- a status that stays, or keeps its incarnation, contradicts `hne`
  have hsame : (s'.executionStatus i).incarnation? = (s.executionStatus i).incarnation? → False :=
    fun hinc => by
      rw [hk, hk'] at hinc
      exact hne (Option.some.inj hinc).symm
  rcases call_cases h with hw | ⟨-, hhalt⟩ | ⟨i', k₀, rfl, hother, hi⟩
  · exact (hsame (hw i).incarnation).elim
  · rcases hhalt i with hj | hj
    · exact (hsame (by rw [hj])).elim
    · simp [hj] at hk'
  · by_cases hii : i = i'
    · subst hii
      rcases hi with ⟨hst, -⟩ | ⟨hst, hst' | hst'⟩
      · simp [hst] at hk
      all_goals
        rw [hst] at hk
        rw [hst'] at hk'
        simp only [ExecutionStatus.incarnation?_aborting, ExecutionStatus.incarnation?_ready,
          ExecutionStatus.incarnation?_executing, Option.some.injEq] at hk hk'
        subst hk hk'
        exact ⟨rfl, hst, rfl⟩
    · exact (hsame (by rw [hother i hii])).elim

/-- Only `halt` halts a transaction. -/
theorem call_halted {c : SchedulerCall} {o : CallOutput} (h : s.call c = .ok (o, s')) {i : Nat}
    (hst : s.executionStatus i ≠ .executionHalted)
    (hst' : s'.executionStatus i = .executionHalted) : c = .halt := by
  rcases call_cases h with hw | ⟨rfl, -⟩ | ⟨i', k, -, hother, hi⟩
  · exact absurd hst' ((hw i).ne_halted hst)
  · rfl
  · by_cases hii : i = i'
    · subst hii
      rcases hi with ⟨h₁, -⟩ | ⟨-, h₂ | h₂⟩
      · exact absurd h₁ hst
      all_goals simp [h₂] at hst'
    · exact absurd (hother i hii ▸ hst') hst

end Steps

/-! ### Histories -/

/-- The version an output hands out for a fresh execution. -/
def CallOutput.handedExecution? : CallOutput → Option (Nat × Nat)
  | .task (some (.executionTask txnIdx incarnation .execution)) => some (txnIdx, incarnation)
  | _ => none

/-- The version a call aborted, if it is a successful `try_abort`. -/
def abortSucceeded? : SchedulerCall × CallOutput → Option (Nat × Nat)
  | (.tryAbort txnIdx incarnation, .aborted true) => some (txnIdx, incarnation)
  | _ => none

section Histories

variable {s s' : Scheduler}

/-- A version is handed out for execution only from `Ready(k, Execution)`, directly or right after
`finish_abort` made it so. -/
theorem call_handedExecution {c : SchedulerCall} {o : CallOutput} (h : s.call c = .ok (o, s'))
    {i k : Nat} (ho : o.handedExecution? = some (i, k)) :
    (s.executionStatus i = .ready k .execution ∨
        ∃ k₀, k = k₀ + 1 ∧ s.executionStatus i = .aborting k₀) ∧
      s'.executionStatus i = .executing k .execution := by
  cases c with
  | nextTask =>
    obtain ⟨r, hc, rfl⟩ := Iff.mp call_nextTask_eq_ok h
    obtain ⟨_, _, ⟨hr, -⟩ | ⟨i', k', t, -, hst, rfl, rfl⟩⟩ := nextTaskIteration_spec hc
    · cases r with
      | none => cases ho
      | some task =>
        cases task with
        | executionTask i' k' t =>
          cases t with
          | execution => exact absurd rfl (hr i' k' .execution)
          | wakeup => cases ho
        | _ => cases ho
    · cases t with
      | execution =>
        replace ho := Prod.mk.inj (Option.some.inj ho)
        obtain ⟨rfl, rfl⟩ := ho
        exact ⟨.inl hst, by simp⟩
      | wakeup => cases ho
  | finishAbort i' k₀ =>
    obtain ⟨task, hc, rfl⟩ := Iff.mp call_finishAbort_eq_ok h
    obtain ⟨s₂, h₂, vs, vi, ⟨rfl, -⟩ | ⟨k', t, hinc, rfl⟩⟩ := finishAbort_spec hc
    · cases ho
    · rcases tryIncarnate_spec hinc with ⟨hnone, -⟩ | ⟨k'', t', -, hst', hsome, rfl⟩
      · cases hnone
      · simp only [Option.some.injEq, Prod.mk.injEq] at hsome
        obtain ⟨rfl, rfl⟩ := hsome
        rcases setAbortedStatus_eq_ok.mp h₂ with ⟨hst, rfl⟩ | ⟨hst, rfl⟩
        · simp [hst] at hst'
        · simp only [setExecutionStatus_eq, Function.update_self,
            ExecutionStatus.ready.injEq] at hst'
          obtain ⟨rfl, rfl⟩ := hst'
          replace ho := Prod.mk.inj (Option.some.inj ho)
          obtain ⟨rfl, rfl⟩ := ho
          exact ⟨.inr ⟨k₀, rfl, hst⟩, by simp⟩
  | finishExecution i' k' r =>
    obtain ⟨task, hc, rfl⟩ := Iff.mp call_finishExecution_eq_ok h
    obtain ⟨-, -, -, -, -, rfl | ⟨_, rfl⟩⟩ := finishExecution_spec hc <;> cases ho
  -- the other calls return no task
  | tryCommit =>
    obtain ⟨r, -, rfl⟩ := call_tryCommit_eq_ok.mp h
    cases ho
  | tryAbort i' k' =>
    obtain ⟨b, -, rfl⟩ := call_tryAbort_eq_ok.mp h
    cases ho
  | finishValidation i' w =>
    obtain ⟨-, rfl⟩ := Iff.mp call_finishValidation_eq_ok h
    cases ho
  | halt =>
    obtain ⟨b, -, rfl⟩ := Iff.mp call_halt_eq_ok h
    cases ho
  | wakeDependenciesAndDecreaseValidationIdx i' =>
    obtain ⟨-, rfl⟩ := Iff.mp call_wakeDependenciesAndDecreaseValidationIdx_eq_ok h
    cases ho
  | waitForDependency i' d =>
    obtain ⟨r, -, rfl⟩ := Iff.mp call_waitForDependency_eq_ok h
    cases ho

/-- A successful `try_abort(i, k)` finds `Executed(k)` and leaves `Aborting(k)`. -/
theorem call_abortSucceeded {c : SchedulerCall} {o : CallOutput} (h : s.call c = .ok (o, s'))
    {i k : Nat} (ho : abortSucceeded? (c, o) = some (i, k)) :
    s.executionStatus i = .executed k ∧ s'.executionStatus i = .aborting k := by
  cases c with
  | tryAbort i' k' =>
    obtain ⟨b, hc, rfl⟩ := call_tryAbort_eq_ok.mp h
    rcases tryAbort_spec hc with ⟨rfl, -⟩ | ⟨rfl, hst, rfl⟩
    · cases ho
    · replace ho := Prod.mk.inj (Option.some.inj ho)
      obtain ⟨rfl, rfl⟩ := ho
      exact ⟨hst, by simp⟩
  | _ => cases ho

/-- The versions handed out for execution over a run, after the ones of `handed`, are all
distinct, as long as the statuses are past the ones of `handed`. -/
theorem runCalls_handedExecutions {calls : List SchedulerCall} {outputs : List CallOutput}
    (h : s.runCalls calls = .ok (outputs, s')) (handed : List (Nat × Nat)) (hnodup : handed.Nodup)
    (hpast : ∀ p ∈ handed, Incarnated p.2 (s.executionStatus p.1)) :
    (handed ++ outputs.filterMap CallOutput.handedExecution?).Nodup ∧
      ∀ p ∈ handed ++ outputs.filterMap CallOutput.handedExecution?,
        Incarnated p.2 (s'.executionStatus p.1) := by
  induction calls generalizing s outputs handed with
  | nil =>
    simp only [runCalls_nil, Except.ok.injEq, Prod.mk.injEq] at h
    obtain ⟨rfl, rfl⟩ := h
    simp only [List.filterMap_nil, List.append_nil]
    exact ⟨hnodup, hpast⟩
  | cons c calls ih =>
    obtain ⟨o, os, s₁, rfl, h₁, h₂⟩ := runCalls_cons h
    have hsteps := call_statusSteps h₁
    have hpast₁ : ∀ p ∈ handed, Incarnated p.2 (s₁.executionStatus p.1) :=
      fun p hp => (hsteps p.1).incarnated (hpast p hp)
    cases ho : o.handedExecution? with
    | none =>
      rw [List.filterMap_cons_none ho]
      exact ih h₂ handed hnodup hpast₁
    | some p =>
      obtain ⟨i, k⟩ := p
      obtain ⟨hbefore, hafter⟩ := call_handedExecution h₁ ho
      -- a version handed out before is past `Ready(k, Execution)` and `Aborting(k - 1)`
      have hnew : (i, k) ∉ handed := by
        intro hmem
        have hinc := hpast (i, k) hmem
        rcases hbefore with hst | ⟨k₀, rfl, hst⟩
        · unfold Incarnated at hinc
          simp [hst] at hinc
        · rw [hst] at hinc
          rcases hinc with hh | ⟨hk, -⟩ | ⟨k', hk', hlt⟩
          · cases hh
          · simp only [ExecutionStatus.incarnation?_aborting, Option.some.injEq] at hk
            omega
          · simp only [ExecutionStatus.incarnation?_aborting, Option.some.injEq] at hk'
            omega
      have hpast' : ∀ p ∈ handed.concat (i, k), Incarnated p.2 (s₁.executionStatus p.1) := by
        intro p hp
        rw [List.concat_eq_append, List.mem_append, List.mem_singleton] at hp
        rcases hp with hp | rfl
        · exact hpast₁ p hp
        · exact .inr (.inl ⟨by simp [hafter], by simp [hafter]⟩)
      rw [List.filterMap_cons_some ho, ← List.singleton_append, ← List.append_assoc,
        ← List.concat_eq_append]
      exact ih h₂ _ (List.Nodup.concat hnew hnodup) hpast'

/-- No version is handed out for execution twice in a run. -/
theorem runCalls_handedExecutions_nodup {calls : List SchedulerCall} {outputs : List CallOutput}
    (h : s.runCalls calls = .ok (outputs, s')) :
    (outputs.filterMap CallOutput.handedExecution?).Nodup := by
  simpa using (runCalls_handedExecutions h [] List.nodup_nil (by simp)).1

/-- The versions `try_abort` succeeds on over a run, after the ones of `aborted`, are all
distinct, as long as the statuses are past the ones of `aborted`. -/
theorem runCalls_successfulAborts {calls : List SchedulerCall} {outputs : List CallOutput}
    (h : s.runCalls calls = .ok (outputs, s')) (aborted : List (Nat × Nat)) (hnodup : aborted.Nodup)
    (hpast : ∀ p ∈ aborted, Aborted p.2 (s.executionStatus p.1)) :
    (aborted ++ (calls.zip outputs).filterMap abortSucceeded?).Nodup := by
  induction calls generalizing s outputs aborted with
  | nil => simpa using hnodup
  | cons c calls ih =>
    obtain ⟨o, os, s₁, rfl, h₁, h₂⟩ := runCalls_cons h
    have hsteps := call_statusSteps h₁
    have hpast₁ : ∀ p ∈ aborted, Aborted p.2 (s₁.executionStatus p.1) :=
      fun p hp => (hsteps p.1).aborted (hpast p hp)
    rw [List.zip_cons_cons]
    cases ho : abortSucceeded? (c, o) with
    | none =>
      rw [List.filterMap_cons_none ho]
      exact ih h₂ aborted hnodup hpast₁
    | some p =>
      obtain ⟨i, k⟩ := p
      obtain ⟨hbefore, hafter⟩ := call_abortSucceeded h₁ ho
      -- a version aborted before is past `Executed(k)`
      have hnew : (i, k) ∉ aborted := by
        intro hmem
        have hab := hpast (i, k) hmem
        unfold Aborted at hab
        simp [hbefore] at hab
      have hpast' : ∀ p ∈ aborted.concat (i, k), Aborted p.2 (s₁.executionStatus p.1) := by
        intro p hp
        rw [List.concat_eq_append, List.mem_append, List.mem_singleton] at hp
        rcases hp with hp | rfl
        · exact hpast₁ p hp
        · exact .inr (.inl hafter)
      rw [List.filterMap_cons_some ho, ← List.singleton_append, ← List.append_assoc,
        ← List.concat_eq_append]
      exact ih h₂ _ (List.Nodup.concat hnew hnodup) hpast'

/-- No version is aborted twice in a run. -/
theorem runCalls_successfulAborts_nodup {calls : List SchedulerCall} {outputs : List CallOutput}
    (h : s.runCalls calls = .ok (outputs, s')) :
    ((calls.zip outputs).filterMap abortSucceeded?).Nodup := by
  simpa using runCalls_successfulAborts h [] List.nodup_nil (by simp)

end Histories

end Scheduler

end CreditChain
