import ThreadPools.Accounting.Ledger

/-! # Shared state of the dynamic pool

The mutexes are flags: a control point that holds a lock is the only evidence of
its owner. The state monitor counts its broadcasts, and a waiter remembers the
count at which it parked, so a waiter has been notified exactly when the two
differ. Time is not modelled: a timed wait may end at any moment. The last three
fields are histories that no step reads.
-/
namespace ThreadPools.Dynamic

abbrev ThreadId := ℕ

/-- A configuration that passed `ThreadPoolBuilder::validate`. -/
structure ThreadPoolConfig where
  corePoolSize : ℕ
  maximumPoolSize : ℕ
  queueCapacity : Option ℕ
  keepAlive : ℕ
  allowCoreThreadTimeout : Bool
  maximumPoolSize_pos : 0 < maximumPoolSize
  corePoolSize_le : corePoolSize ≤ maximumPoolSize
  queueCapacity_pos : ∀ capacity ∈ queueCapacity, 0 < capacity
  keepAlive_pos : 0 < keepAlive

structure ThreadPoolState where
  lifecycle : ExecutorServiceLifecycle
  liveWorkers : ℕ
  exitingWorkers : ℕ
  idleWorkers : ℕ
  corePoolSize : ℕ
  maximumPoolSize : ℕ
  keepAlive : ℕ
  allowCoreThreadTimeout : Bool
  nextWorkerIndex : ℕ

namespace ThreadPoolState

def new (config : ThreadPoolConfig) : ThreadPoolState where
  lifecycle := .running
  liveWorkers := 0
  exitingWorkers := 0
  idleWorkers := 0
  corePoolSize := config.corePoolSize
  maximumPoolSize := config.maximumPoolSize
  keepAlive := config.keepAlive
  allowCoreThreadTimeout := config.allowCoreThreadTimeout
  nextWorkerIndex := 0

def workerWaitIsTimed (s : ThreadPoolState) : Bool :=
  s.allowCoreThreadTimeout || decide (s.corePoolSize < s.liveWorkers)

def idleWorkerCanRetire (s : ThreadPoolState) : Bool :=
  decide (s.maximumPoolSize < s.liveWorkers) ||
    (s.workerWaitIsTimed && (decide (s.corePoolSize < s.liveWorkers) || s.allowCoreThreadTimeout))

/-- The monitor-protected conjuncts of `is_terminated_locked`. -/
def isTerminatedHead (s : ThreadPoolState) : Bool :=
  decide (s.lifecycle ≠ .running) && decide (s.liveWorkers = 0) && decide (s.exitingWorkers = 0)

end ThreadPoolState

/-- `queued` stands for `Queued(job)`: the entry owns the callbacks of its job. -/
inductive QueuedJobState where
  | prepared
  | accepting (owner : ThreadId) (cancelRequested : Bool)
  | queued
  | taken
  | cancelling
  | cancelled
  | rejected
  deriving DecidableEq, Repr

/-- A job and its queue entry. An unticketed job has no entry before publication. -/
structure Job where
  ticketed : Bool
  entry : Option QueuedJobState
  entryLocked : Bool
  submitter : ThreadId
  /-- Admitted together with a spawned worker rather than through the capacity. -/
  handoff : Bool
  offered : Bool
  history : List JobEvent

def Job.new (ticketed : Bool) : Job where
  ticketed := ticketed
  entry := if ticketed then some .prepared else none
  entryLocked := false
  submitter := 0
  handoff := false
  offered := false
  history := []

structure Shared where
  state : ThreadPoolState
  locked : Bool
  epoch : ℕ
  acct : PoolAccounting
  stopNow : Bool
  liveWorkerCount : ℕ
  idleWorkerCount : ℕ
  pendingWorkerWakes : ℕ
  submitWaiterCount : ℕ
  idleWaiterCount : ℕ
  queueLocked : Bool
  globalQueue : List JobId
  jobs : JobId → Job
  terminationTx : Bool
  capacityTx : ℕ
  finished : List (JobId × Ending)
  observed : List ExecutorServiceLifecycle

namespace Shared

/-- `tickets` tells which jobs were made by `prepare_cancellable_job`. -/
def new (config : ThreadPoolConfig) (tickets : JobId → Bool) : Shared where
  state := .new config
  locked := false
  epoch := 0
  acct := .new config.queueCapacity
  stopNow := false
  liveWorkerCount := 0
  idleWorkerCount := 0
  pendingWorkerWakes := 0
  submitWaiterCount := 0
  idleWaiterCount := 0
  queueLocked := false
  globalQueue := []
  jobs := fun j => .new (tickets j)
  terminationTx := false
  capacityTx := 0
  finished := []
  observed := []

def setJob (sh : Shared) (j : JobId) (f : Job → Job) : Shared :=
  { sh with jobs := Function.update sh.jobs j (f (sh.jobs j)) }

def setEntry (sh : Shared) (j : JobId) (e : QueuedJobState) : Shared :=
  sh.setJob j fun job => { job with entry := some e }

def record (sh : Shared) (j : JobId) (e : JobEvent) : Shared :=
  sh.setJob j fun job => { job with history := job.history ++ [e] }

/-- Acquires the state monitor; `none` is a caller that has to wait for it. -/
def lock (sh : Shared) : Option Shared := if sh.locked then none else some { sh with locked := true }

def lockQueue (sh : Shared) : Option Shared :=
  if sh.queueLocked then none else some { sh with queueLocked := true }

/-- A monitor section that touches monitor-protected data only. -/
def withLock (sh : Shared) (f : Shared → Shared) : Option Shared :=
  if sh.locked then none else some (f sh)

def unlock (sh : Shared) : Shared := { sh with locked := false }
def unlockQueue (sh : Shared) : Shared := { sh with queueLocked := false }
def notifyAll (sh : Shared) : Shared := { sh with epoch := sh.epoch + 1 }
def notifyCapacityChanged (sh : Shared) : Shared := { sh with capacityTx := sh.capacityTx + 1 }

def reserveWorkerLocked (sh : Shared) : Shared :=
  { sh with state := { sh.state with
      nextWorkerIndex := sh.state.nextWorkerIndex + 1, liveWorkers := sh.state.liveWorkers + 1 } }

def markWorkerIdle (sh : Shared) : Shared :=
  { sh with
    state := { sh.state with idleWorkers := sh.state.idleWorkers + 1 }
    idleWorkerCount := sh.idleWorkerCount + 1 }

/-- `unmark_thread_pool_worker_idle` up to the consumption of a wake token. -/
def unmarkWorkerIdle (sh : Shared) : Shared :=
  { sh with
    state := { sh.state with idleWorkers := sh.state.idleWorkers - 1 }
    idleWorkerCount := sh.idleWorkerCount - 1 }

def setAcct (sh : Shared) (a : PoolAccounting) : Shared := { sh with acct := a }

def history (sh : Shared) : JobId → List JobEvent := fun j => (sh.jobs j).history
def offered (sh : Shared) : JobId → Bool := fun j => (sh.jobs j).offered

end Shared

end ThreadPools.Dynamic
