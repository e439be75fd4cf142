import ThreadPools.Dynamic.State

/-! # Control points of the dynamic pool

A control point names the next atomic action of one call or of one worker. A
function that several callers share keeps its caller as an argument. Calls that a
callback makes on the same pool are calls of their own: the pool runs callbacks
only while it holds no lock, so the callback's thread and a further caller cannot
be told apart.
-/
namespace ThreadPools.Dynamic

/-- Callers of `PoolJob::cancel` followed by `finish_cancelled_job`. -/
inductive CancelCaller where
  | submitter (j : JobId)
  | ticket (j : JobId)
  | stop (j : JobId) (rest : List JobId) (report : StopReport)
  deriving DecidableEq

def CancelCaller.job : CancelCaller → JobId
  | .submitter j | .ticket j | .stop j _ _ => j

def CancelCaller.rest : CancelCaller → List JobId
  | .submitter _ | .ticket _ => []
  | .stop _ rest _ => rest

/-- Callers of `notify_waiters_after_atomic_change`. -/
inductive NotifyCaller where
  | acceptFailed (j : JobId)
  | departed (j : JobId) (result : SubmitResult)
  | finishedRunning
  | finishedCancelled (k : CancelCaller)
  deriving DecidableEq

inductive SpawnCaller where
  | submit (j : JobId)
  | prestart
  deriving DecidableEq

inductive Observer where
  | subscribe | lifecycle | isTerminated | waitTermination
  | stats (counters : PoolCounterSnapshot)
  deriving DecidableEq

/-- Callers of `is_terminated_locked`, among them `publish_termination_locked`. -/
inductive TermCaller where
  | notify (k : NotifyCaller)
  | shutdown
  | stop (jobs : List JobId) (report : StopReport)
  | observer (o : Observer)
  | spawnFailed (k : SpawnCaller)
  | spawnPublish (k : SpawnCaller)
  | unregister
  | unregisterPublish
  | exit
  | exitPublish
  deriving DecidableEq

inductive IdleCaller where
  | finishedRunning
  | finishedCancelled (k : CancelCaller)
  | join
  | spawnFailed (k : SpawnCaller)
  | term (k : TermCaller)
  deriving DecidableEq

inductive SubmitPc where
  | enter | lockState | checkState | reserveSlot | handoff | unlockReserved
  | rejectUnlock (error : SubmissionError)
  | discard (error : PoolJobSubmissionError)
  | beginAccept | callAccept | accepting
  | rollback | rollbackNotify | setRejected
  | lockQueue | publishSubmitted | publishQueued | decideEntry
  | requestedWithdraw | requestedCancelling | requestedUnlock
  | unlockQueue | loadIdle | raiseToken (idleWorkers : ℕ) | broadcast
  | leave (result : SubmitResult) | departGate (result : SubmitResult)
  | departWaiters (result : SubmitResult) | returned (result : SubmitResult)
  deriving DecidableEq

inductive WorkerPc where
  | start
  | takeLock | takeStop | takePop | takeNone
  | claimQueued (j : JobId) | claimRunning (j : JobId) | claimSlot (j : JobId)
  | claimNotify (j : JobId) | claimUnlock (j : JobId)
  | callRun (j : JobId) | running (j : JobId)
  | finishCompleted (j : JobId) | finishRunning (j : JobId) | finishNotify
  | lockState | overMaximum | relock
  | mark (timed : Bool) | readQueued (timed : Bool) | readPending (timed : Bool)
  | park (timed : Bool) | parked (timed : Bool) (epoch : ℕ)
  | retireQueued | retirePending | retireInflight
  | unmark (retire : Bool) | consume (retire : Bool) | unlock
  | drainQueued | drainInflight | drainMark | drainReadQueued | drainReadInflight
  | drainPark | drainParked (epoch : ℕ)
  | unregister | unregisterCount | unregisterNotify | unregisterUnlock | stopHook
  | exitLock | exitTerminated | exitNotify | exited
  deriving DecidableEq

inductive StopPc where
  | close | notifyCapacity | storeStop | lockState | readInflight | addWaiter | recheck
  | park | parked (epoch : ℕ) | subWaiter | readRunning
  | lockQueue (running : ℕ) | drain (running : ℕ) (jobs : List JobId)
  | drainWithdraw (running : ℕ) (jobs : List JobId) (j : JobId)
  | drainCancelling (running : ℕ) (jobs : List JobId) (j : JobId)
  | unlockQueue (running : ℕ) (jobs : List JobId)
  | notifyAll (jobs : List JobId) (report : StopReport)
  | next (jobs : List JobId) (report : StopReport)
  | finalNotify (report : StopReport) | returned (report : StopReport)
  deriving DecidableEq

inductive ShutdownPc where
  | close | notifyCapacity | lockState | notifyAll | returned
  deriving DecidableEq

/-- `PoolJobTicket::cancel_queued` by a thread, with the part of
`cancel_queued_entry` up to the callback. -/
inductive TicketPc where
  | check (caller : ThreadId) | waiting | lockQueue | remove | unlockFalse
  | withdraw | cancelling | unlockQueue | returned (cancelled : Bool)
  deriving DecidableEq

inductive CancelPc where
  | call | running | addCancelled | subCancelling | subSlot | notifyCapacity | done
  deriving DecidableEq

inductive SpawnPc where
  | spawn | liveCount | rollback | notify | unlock
  deriving DecidableEq

inductive JoinPc where
  | addWaiter | lockState | park | parked (epoch : ℕ) | subWaiter | unlock | returned
  deriving DecidableEq

structure ThreadPoolStats where
  lifecycle : ExecutorServiceLifecycle
  corePoolSize : ℕ
  maximumPoolSize : ℕ
  queueCapacity : Option ℕ
  liveWorkers : ℕ
  idleWorkers : ℕ
  queuedTasks : ℕ
  runningTasks : ℕ
  submittedTasks : ℕ
  completedTasks : ℕ
  cancelledTasks : ℕ
  terminated : Bool
  deriving DecidableEq

inductive ObservePc where
  | lockState (o : Observer)
  | park | parked (epoch : ℕ)
  | unlock (o : Observer) (terminated : Bool)
  | returned (terminated : Bool)
  | returnedLifecycle (lifecycle : ExecutorServiceLifecycle)
  | snapshot (r : SnapshotRead) (counters : PoolCounterSnapshot)
  | returnedStats (stats : ThreadPoolStats)
  deriving DecidableEq

inductive SetterPc where
  | corePoolSize (n : ℕ) | maximumPoolSize (n : ℕ) | keepAlive (n : ℕ)
  | allowCoreThreadTimeout (allow : Bool)
  | notify | returned (accepted : Bool)
  deriving DecidableEq

inductive Panic where
  | admission | counter (c : Counter) | liveWorkers | idleWorkers | exitingWorkers
  | submitWaiters | idleWaiters
  deriving DecidableEq

inductive Pc where
  | submit (j : JobId) (p : SubmitPc)
  | spawn (p : SpawnPc) (k : SpawnCaller)
  | prestart
  | prestartUnlock
  | prestarted (result : Except SubmissionError Bool)
  | worker (p : WorkerPc)
  | shutdown (p : ShutdownPc)
  | stop (p : StopPc)
  | ticket (j : JobId) (p : TicketPc)
  | cancel (p : CancelPc) (k : CancelCaller)
  | join (p : JoinPc)
  | observe (p : ObservePc)
  | setter (p : SetterPc)
  | notifyLock (k : NotifyCaller)
  | notifyAll (k : NotifyCaller)
  | term (k : TermCaller)
  | publish (k : TermCaller)
  | idle (r : IdleRead) (k : IdleCaller)
  | panicked (cause : Panic)
  deriving DecidableEq

end ThreadPools.Dynamic
