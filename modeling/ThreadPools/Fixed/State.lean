import ThreadPools.Accounting.Ledger

/-! # Shared state and control points of the fixed pool

The pool starts as `FixedThreadPoolBuilder::build` returns it, with all its workers
registered. The injector is a linearizable FIFO queue, so a push and a successful or
empty steal are single steps. As in the dynamic pool, locks are flags, a waiter
remembers the broadcast count at which it parked and calls made by callbacks are
calls of their own.
-/
namespace ThreadPools.Fixed

/-- A configuration that passed `FixedThreadPoolBuilder::validate`. -/
structure FixedThreadPoolConfig where
  poolSize : ℕ
  queueCapacity : Option ℕ
  poolSize_pos : 0 < poolSize
  queueCapacity_pos : ∀ capacity ∈ queueCapacity, 0 < capacity

structure FixedThreadPoolState where
  lifecycle : ExecutorServiceLifecycle
  liveWorkers : ℕ
  idleWorkers : ℕ

/-- The monitor-protected conjuncts of `is_terminated_locked`. -/
def FixedThreadPoolState.isTerminatedHead (s : FixedThreadPoolState) : Bool :=
  decide (s.lifecycle ≠ .running) && decide (s.liveWorkers = 0)

/-- The last four fields are histories that no step reads. -/
structure Shared where
  poolSize : ℕ
  state : FixedThreadPoolState
  locked : Bool
  epoch : ℕ
  acct : PoolAccounting
  stopNow : Bool
  idleWorkerCount : ℕ
  pendingWorkerWakes : ℕ
  submitWaiterCount : ℕ
  idleWaiterCount : ℕ
  globalQueue : List JobId
  offered : JobId → Bool
  history : JobId → List JobEvent
  finished : List (JobId × Ending)
  observed : List ExecutorServiceLifecycle

namespace Shared

/-- The shared state once all workers have been spawned. -/
def new (config : FixedThreadPoolConfig) : Shared where
  poolSize := config.poolSize
  state := ⟨.running, config.poolSize, 0⟩
  locked := false
  epoch := 0
  acct := .new config.queueCapacity
  stopNow := false
  idleWorkerCount := 0
  pendingWorkerWakes := 0
  submitWaiterCount := 0
  idleWaiterCount := 0
  globalQueue := []
  offered := fun _ => false
  history := fun _ => []
  finished := []
  observed := []

def setAcct (sh : Shared) (a : PoolAccounting) : Shared := { sh with acct := a }

def record (sh : Shared) (j : JobId) (e : JobEvent) : Shared :=
  { sh with history := Function.update sh.history j (sh.history j ++ [e]) }

def finish (sh : Shared) (j : JobId) (e : Ending) : Shared :=
  { sh with finished := sh.finished ++ [(j, e)] }

def setLifecycle (sh : Shared) (l : ExecutorServiceLifecycle) : Shared :=
  { sh with state := { sh.state with lifecycle := l } }

def lock (sh : Shared) : Option Shared := if sh.locked then none else some { sh with locked := true }

def withLock (sh : Shared) (f : Shared → Shared) : Option Shared :=
  if sh.locked then none else some (f sh)

def unlock (sh : Shared) : Shared := { sh with locked := false }
def notifyAll (sh : Shared) : Shared := { sh with epoch := sh.epoch + 1 }

def markWorkerIdle (sh : Shared) : Shared :=
  { sh with
    state := { sh.state with idleWorkers := sh.state.idleWorkers + 1 }
    idleWorkerCount := sh.idleWorkerCount + 1 }

/-- `unmark_fixed_worker_idle` up to the consumption of a wake token. -/
def unmarkWorkerIdle (sh : Shared) : Shared :=
  { sh with
    state := { sh.state with idleWorkers := sh.state.idleWorkers - 1 }
    idleWorkerCount := sh.idleWorkerCount - 1 }

end Shared

inductive SubmitPc where
  | enter | reserve
  | callAccept | accepting | rollback | rollbackNotify
  | discard (error : PoolJobSubmissionError)
  | publishSubmitted | publishQueued | push
  | loadIdle | raiseToken (idleWorkers : ℕ) | broadcast
  | leave (result : SubmitResult) | departGate (result : SubmitResult)
  | departWaiters (result : SubmitResult) | departNotify (result : SubmitResult)
  | returned (result : SubmitResult)
  deriving DecidableEq

/-- `unmark` and `consume` know whether the worker goes round its wait loop again or
returns to take a job. -/
inductive WorkerPc where
  | start
  | takeStop | steal | acceptStop (j : JobId)
  | claimQueued (j : JobId) | claimRunning (j : JobId) | claimSlot (j : JobId)
  | withdraw (j : JobId) | cancelling (j : JobId)
  | callRun (j : JobId) | running (j : JobId)
  | finishCompleted (j : JobId) | finishRunning (j : JobId) | finishNotify
  | lockState | dispatch | waitQueued
  | spinQueued (probes : ℕ) | spinPending (probes : ℕ) | spinGate (probes : ℕ)
  | relock | mark | readQueued | readPending | park | parked (epoch : ℕ)
  | unmark (again : Bool) | consume (again : Bool) | unlock
  | drainQueued | drainInflight | drainMark | drainReadQueued | drainReadInflight
  | drainPark | drainParked (epoch : ℕ)
  | stopHook | exit | exited
  deriving DecidableEq

/-- What a stop call remembers for its report: whether it stored the lifecycle, and the
two counters of its first snapshot that the report uses. -/
structure StopInfo where
  isNewStop : Bool
  cancelling : ℕ
  cancelled : ℕ
  running : ℕ
  deriving DecidableEq

inductive StopPc where
  | beforeCancelling | beforeCancelled (cancelling : ℕ)
  | close (info : StopInfo) | storeStop (info : StopInfo) | lockState (info : StopInfo)
  | readInflight (info : StopInfo) | addWaiter (info : StopInfo) | recheck (info : StopInfo)
  | park (info : StopInfo) | parked (info : StopInfo) (epoch : ℕ) | subWaiter (info : StopInfo)
  | readRunning (info : StopInfo)
  | drain (info : StopInfo) (jobs : List JobId)
  | begin (info : StopInfo) (begun : List JobId) (jobs : List JobId)
  | beginCancelling (info : StopInfo) (begun : List JobId) (j : JobId) (jobs : List JobId)
  | afterCancelling (info : StopInfo) (jobs : List JobId)
  | afterCancelled (info : StopInfo) (jobs : List JobId) (cancelling : ℕ)
  | notifyAll (jobs : List JobId) (report : StopReport)
  | next (jobs : List JobId) (report : StopReport)
  | finalNotify (report : StopReport) | returned (report : StopReport)
  deriving DecidableEq

inductive ShutdownPc where
  | close | lockState | returned
  deriving DecidableEq

inductive CancelCaller where
  | worker (j : JobId)
  | stop (j : JobId) (rest : List JobId) (report : StopReport)
  deriving DecidableEq

def CancelCaller.job : CancelCaller → JobId
  | .worker j | .stop j _ _ => j

def CancelCaller.rest : CancelCaller → List JobId
  | .worker _ => []
  | .stop _ rest _ => rest

inductive CancelPc where
  | call | running | addCancelled | subCancelling | subSlot | notify | done
  deriving DecidableEq

inductive JoinPc where
  | addWaiter | lockState | park | parked (epoch : ℕ) | subWaiter | unlock | returned
  deriving DecidableEq

inductive Observer where
  | lifecycle | isTerminated | waitTermination
  deriving DecidableEq

inductive ObservePc where
  | lockState (o : Observer)
  | term (o : Observer)
  | park | parked (epoch : ℕ)
  | unlock (o : Observer) (terminated : Bool)
  | returned (terminated : Bool)
  | returnedLifecycle (lifecycle : ExecutorServiceLifecycle)
  deriving DecidableEq

inductive IdleCaller where
  | finishedRunning
  | join
  | term (o : Observer)
  deriving DecidableEq

inductive Panic where
  | admission | counter (c : Counter) | liveWorkers | idleWorkers | submitWaiters | idleWaiters
  deriving DecidableEq

inductive Pc where
  | submit (j : JobId) (p : SubmitPc)
  | worker (p : WorkerPc)
  | shutdown (p : ShutdownPc)
  | stop (p : StopPc)
  | cancel (p : CancelPc) (k : CancelCaller)
  | join (p : JoinPc)
  | observe (p : ObservePc)
  | idle (r : IdleRead) (k : IdleCaller)
  | panicked (cause : Panic)
  deriving DecidableEq

end ThreadPools.Fixed
