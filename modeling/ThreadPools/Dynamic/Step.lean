import ThreadPools.Dynamic.Control
import ThreadPools.Interleaving.Machine

/-! # Steps of the dynamic pool

One step is one atomic access to a shared counter, one acquisition or release of a
lock, one callback boundary or one monitor wait. Accesses to data that a held lock
protects are part of the neighbouring step; so is the release that directly follows
an access. A step that cannot be taken because a lock is held is `none`.
-/
namespace ThreadPools.Dynamic

namespace Shared

def lower (sh : Shared) (c : Counter) (k : Shared → Shared × Pc) : Shared × Pc :=
  match sh.acct.sub c with
  | some a => k (sh.setAcct a)
  | none => (sh, .panicked (.counter c))

def raise (sh : Shared) (c : Counter) : Shared := sh.setAcct (sh.acct.add c)

def setLifecycle (sh : Shared) (l : ExecutorServiceLifecycle) : Shared :=
  { sh with state := { sh.state with lifecycle := l } }

def finish (sh : Shared) (j : JobId) (e : Ending) : Shared :=
  { sh with finished := sh.finished ++ [(j, e)] }

/-- `entry.take_queued()` on an entry that was just found in the queue. -/
def takeQueued (sh : Shared) (j : JobId) : Option Shared :=
  if (sh.jobs j).entry = some .queued then some (sh.setEntry j .taken) else none

end Shared

open Shared

/-- `reserve_submission_with_state_lock`, `accept_and_enqueue_reserved_job`,
`wake_one_idle_worker` and the drop of the submit guard. -/
def submitStep (sh : Shared) (j : JobId) (c : Outcome) : SubmitPc → Option (Shared × Pc)
  | .enter =>
    match sh.acct.tryEnter with
    | some a => some (sh.setAcct a, .submit j .lockState)
    | none => some (sh, .submit j (.returned (some (.rejected .shutdown))))
  | .lockState => sh.lock.map fun s => (s, .submit j .checkState)
  | .checkState =>
    if sh.state.lifecycle ≠ .running then some (sh, .submit j (.rejectUnlock .shutdown))
    else if sh.state.liveWorkers < sh.state.corePoolSize then
      some (sh.reserveWorkerLocked, .spawn .spawn (.submit j))
    else if sh.state.liveWorkers = 0 then some (sh.reserveWorkerLocked, .spawn .spawn (.submit j))
    else some (sh, .submit j .reserveSlot)
  | .reserveSlot =>
    match sh.acct.tryReserveBoundedSlot with
    | some a => some (sh.setAcct a, .submit j .unlockReserved)
    | none =>
      if sh.state.liveWorkers < sh.state.maximumPoolSize then
        some (sh.reserveWorkerLocked, .spawn .spawn (.submit j))
      else some (sh, .submit j (.rejectUnlock .saturated))
  | .handoff =>
    some ((sh.setAcct sh.acct.reserveWorkerHandoffSlot).setJob j fun job => { job with handoff := true },
      .submit j .unlockReserved)
  | .unlockReserved => some (sh.unlock, .submit j .beginAccept)
  | .rejectUnlock error => some (sh.unlock, .submit j (.discard (.rejected error)))
  | .discard error => some (sh, .submit j (.leave (some error)))
  | .beginAccept =>
    if (sh.jobs j).ticketed then
      some (sh.setEntry j (.accepting (sh.jobs j).submitter false), .submit j .callAccept)
    else some (sh, .submit j .callAccept)
  | .callAccept => some (sh.record j .acceptBegin, .submit j .accepting)
  | .accepting =>
    match c with
    | .ok => some (sh.record j .acceptEnd, .submit j .lockQueue)
    | .err => some (sh.record j .acceptPanicked, .submit j .rollback)
  | .rollback => some (sh.lower .queueSlot fun s => (s, .submit j .rollbackNotify))
  | .rollbackNotify => some (sh.notifyCapacityChanged, .submit j .setRejected)
  | .setRejected =>
    if (sh.jobs j).ticketed then some (sh.setEntry j .rejected, .notifyLock (.acceptFailed j))
    else some (sh, .notifyLock (.acceptFailed j))
  | .lockQueue => sh.lockQueue.map fun s => (s, .submit j .publishSubmitted)
  | .publishSubmitted => some (sh.raise .submitted, .submit j .publishQueued)
  | .publishQueued => some (sh.raise .queued, .submit j .decideEntry)
  | .decideEntry =>
    match (sh.jobs j).entry with
    | some (.accepting _ true) =>
      some (sh.setJob j fun job => { job with entry := some .cancelling, entryLocked := true },
        .submit j .requestedWithdraw)
    | _ => some ({ sh.setEntry j .queued with globalQueue := sh.globalQueue ++ [j] }, .submit j .unlockQueue)
  | .requestedWithdraw => some (sh.lower .queued fun s => (s, .submit j .requestedCancelling))
  | .requestedCancelling => some (sh.raise .cancelling, .submit j .requestedUnlock)
  | .requestedUnlock =>
    some ((sh.setJob j fun job => { job with entryLocked := false }).unlockQueue, .cancel .call (.submitter j))
  | .unlockQueue => some (sh.unlockQueue, .submit j .loadIdle)
  | .loadIdle =>
    if sh.idleWorkerCount = 0 then some (sh, .submit j (.leave none))
    else some (sh, .submit j (.raiseToken sh.idleWorkerCount))
  | .raiseToken idleWorkers =>
    if sh.pendingWorkerWakes < idleWorkers then
      some ({ sh with pendingWorkerWakes := sh.pendingWorkerWakes + 1 }, .submit j .broadcast)
    else some (sh, .submit j (.leave none))
  | .broadcast => (sh.withLock notifyAll).map fun s => (s, .submit j (.leave none))
  | .leave result =>
    match sh.acct.leave with
    | some (a, last) =>
      some (sh.setAcct a, .submit j (if last then .departGate result else .returned result))
    | none => some (sh, .panicked .admission)
  | .departGate result =>
    if sh.acct.isAdmissionOpen then some (sh, .submit j (.departWaiters result))
    else some (sh, .notifyLock (.departed j result))
  | .departWaiters result =>
    if 0 < sh.idleWaiterCount then some (sh, .notifyLock (.departed j result))
    else some (sh, .submit j (.returned result))
  | .returned _ => none

/-- `spawn_reserved_worker_locked` after the spawn itself. -/
def spawnStep (sh : Shared) (k : SpawnCaller) (c : Outcome) : SpawnPc → Option (Shared × Pc)
  | .spawn =>
    match c with
    | .ok => some (sh, .spawn .liveCount k)
    | .err => some (sh, .spawn .rollback k)
  | .liveCount =>
    some ({ sh with liveWorkerCount := sh.liveWorkerCount + 1 },
      match k with
      | .submit j => .submit j .handoff
      | .prestart => .prestartUnlock)
  | .rollback =>
    if 0 < sh.state.liveWorkers then
      some ({ sh with state := { sh.state with liveWorkers := sh.state.liveWorkers - 1 } },
        .idle .inflight (.spawnFailed k))
    else some (sh, .panicked .liveWorkers)
  | .notify => some (sh.notifyAll, .spawn .unlock k)
  | .unlock =>
    some (sh.unlock,
      match k with
      | .submit j => .submit j (.discard (.rejected .workerSpawnFailed))
      | .prestart => .prestarted (.error .workerSpawnFailed))

/-- `prestart_core_thread` up to the spawn. -/
def prestartStep (sh : Shared) : Option (Shared × Pc) :=
  sh.lock.map fun s =>
    if s.state.lifecycle ≠ .running then (s.unlock, .prestarted (.error .shutdown))
    else if s.state.corePoolSize ≤ s.state.liveWorkers then (s.unlock, .prestarted (.ok false))
    else (s.reserveWorkerLocked, .spawn .spawn .prestart)

/-- `try_take_queued_job`, `finish_running_job`, `wait_for_job` and
`finish_worker_exit`. -/
def workerStep (sh : Shared) (c : Outcome) : WorkerPc → Option (Shared × Pc)
  | .start => some (sh, .worker .takeLock)
  | .takeLock => sh.lockQueue.map fun s => (s, .worker .takeStop)
  | .takeStop => some (sh, .worker (if sh.stopNow then .takeNone else .takePop))
  | .takePop =>
    match sh.globalQueue with
    | [] => some (sh, .worker .takeNone)
    | j :: rest =>
      match ({ sh with globalQueue := rest }).takeQueued j with
      | some s => some (s, .worker (.claimQueued j))
      | none => some ({ sh with globalQueue := rest }, .worker .takeNone)
  | .takeNone => some (sh.unlockQueue, .worker .lockState)
  | .claimQueued j => some (sh.lower .queued fun s => (s, .worker (.claimRunning j)))
  | .claimRunning j => some (sh.raise .running, .worker (.claimSlot j))
  | .claimSlot j => some (sh.lower .queueSlot fun s => (s, .worker (.claimNotify j)))
  | .claimNotify j => some (sh.notifyCapacityChanged, .worker (.claimUnlock j))
  | .claimUnlock j => some (sh.unlockQueue, .worker (.callRun j))
  | .callRun j => some (sh.record j .runBegin, .worker (.running j))
  | .running j => some (sh.record j .runEnd, .worker (.finishCompleted j))
  | .finishCompleted j => some (sh.raise .completed, .worker (.finishRunning j))
  | .finishRunning j =>
    some (sh.lower .running fun s => ((s.record j .accounted).finish j .completed, .worker .finishNotify))
  | .finishNotify => some (sh.notifyCapacityChanged, .idle .inflight .finishedRunning)
  | .lockState =>
    sh.lock.map fun s => (s, .worker (match s.state.lifecycle with
      | .running => .overMaximum
      | .shuttingDown => .drainQueued
      | .stopping | .terminated => .unregister))
  | .overMaximum =>
    if sh.acct.queuedCount = 0 ∧ sh.state.maximumPoolSize < sh.state.liveWorkers ∧ 0 < sh.state.liveWorkers then
      some (sh, .worker .unregister)
    else some (sh.unlock, .worker .relock)
  | .relock =>
    sh.lock.map fun s =>
      if s.state.lifecycle = .running then (s, .worker (.mark s.state.workerWaitIsTimed))
      else (s.unlock, .worker .takeLock)
  | .mark timed => some (sh.markWorkerIdle, .worker (.readQueued timed))
  | .readQueued timed =>
    some (sh, .worker (if sh.acct.queuedCount = 0 then .readPending timed else .unmark false))
  | .readPending timed =>
    some (sh, .worker (if 0 < sh.pendingWorkerWakes then .unmark false else .park timed))
  | .park timed => some (sh.unlock, .worker (.parked timed sh.epoch))
  | .parked timed _ =>
    match c with
    | .ok => sh.lock.map fun s => (s, .worker (.unmark false))
    | .err => if timed then sh.lock.map fun s => (s, .worker .retireQueued) else none
  | .retireQueued => some (sh, .worker (if sh.acct.queuedCount = 0 then .retirePending else .unmark false))
  | .retirePending =>
    some (sh, .worker (
      if 0 < sh.pendingWorkerWakes then .unmark false
      else if 1 < sh.state.liveWorkers then .unmark sh.state.idleWorkerCanRetire
      else .retireInflight))
  | .retireInflight =>
    some (sh, .worker (
      if sh.acct.inflightCount = 0 then .unmark sh.state.idleWorkerCanRetire else .unmark false))
  | .unmark retire =>
    if 0 < sh.state.idleWorkers ∧ 0 < sh.idleWorkerCount then
      some (sh.unmarkWorkerIdle, .worker (.consume retire))
    else some (sh, .panicked .idleWorkers)
  | .consume retire =>
    some ({ sh with pendingWorkerWakes := sh.pendingWorkerWakes - 1 },
      .worker (if retire then .unregister else .unlock))
  | .unlock => some (sh.unlock, .worker .takeLock)
  | .drainQueued => some (sh, .worker (if sh.acct.queuedCount = 0 then .drainInflight else .unlock))
  | .drainInflight => some (sh, .worker (if sh.acct.inflightCount = 0 then .unregister else .drainMark))
  | .drainMark => some (sh.markWorkerIdle, .worker .drainReadQueued)
  | .drainReadQueued =>
    some (sh, .worker (if sh.acct.queuedCount = 0 then .drainReadInflight else .unmark false))
  | .drainReadInflight =>
    some (sh, .worker (if 0 < sh.acct.inflightCount then .drainPark else .unmark false))
  | .drainPark => some (sh.unlock, .worker (.drainParked sh.epoch))
  | .drainParked _ => sh.lock.map fun s => (s, .worker (.unmark false))
  | .unregister =>
    if 0 < sh.state.liveWorkers then
      some ({ sh with state := { sh.state with
          exitingWorkers := sh.state.exitingWorkers + 1, liveWorkers := sh.state.liveWorkers - 1 } },
        .worker .unregisterCount)
    else some (sh, .panicked .liveWorkers)
  | .unregisterCount =>
    if 0 < sh.liveWorkerCount then
      some ({ sh with liveWorkerCount := sh.liveWorkerCount - 1 }, .term .unregister)
    else some (sh, .panicked .liveWorkers)
  | .unregisterNotify => some (sh.notifyAll, .worker .unregisterUnlock)
  | .unregisterUnlock => some (sh.unlock, .worker .stopHook)
  | .stopHook => some (sh, .worker .exitLock)
  | .exitLock =>
    sh.lock.map fun s =>
      if 0 < s.state.exitingWorkers then
        ({ s with state := { s.state with exitingWorkers := s.state.exitingWorkers - 1 } }, .term .exit)
      else (s, .panicked .exitingWorkers)
  | .exitTerminated => some (sh.notifyAll, .worker .exitNotify)
  | .exitNotify => some (sh.notifyAll.unlock, .worker .exited)
  | .exited => none

def shutdownStep (sh : Shared) : ShutdownPc → Option (Shared × Pc)
  | .close => some (sh.setAcct sh.acct.closeAdmission, .shutdown .notifyCapacity)
  | .notifyCapacity => some (sh.notifyCapacityChanged, .shutdown .lockState)
  | .lockState =>
    sh.lock.map fun s =>
      (if s.state.lifecycle = .running then s.setLifecycle .shuttingDown else s, .term .shutdown)
  | .notifyAll => some (sh.notifyAll.unlock, .shutdown .returned)
  | .returned => none

/-- `stop` with `drain_visible_queued_jobs`. -/
def stopStep (sh : Shared) : StopPc → Option (Shared × Pc)
  | .close => some (sh.setAcct sh.acct.closeAdmission, .stop .notifyCapacity)
  | .notifyCapacity => some (sh.notifyCapacityChanged, .stop .storeStop)
  | .storeStop => some ({ sh with stopNow := true }, .stop .lockState)
  | .lockState =>
    sh.lock.map fun s =>
      let s := { s with stopNow := true }
      (match s.state.lifecycle with
        | .running | .shuttingDown => s.setLifecycle .stopping
        | .stopping | .terminated => s,
        .stop .readInflight)
  | .readInflight => some (sh, .stop (if 0 < sh.acct.inflightCount then .addWaiter else .readRunning))
  | .addWaiter => some ({ sh with submitWaiterCount := sh.submitWaiterCount + 1 }, .stop .recheck)
  | .recheck => some (sh, .stop (if 0 < sh.acct.inflightCount then .park else .subWaiter))
  | .park => some (sh.unlock, .stop (.parked sh.epoch))
  | .parked _ => sh.lock.map fun s => (s, .stop .recheck)
  | .subWaiter =>
    if 0 < sh.submitWaiterCount then
      some ({ sh with submitWaiterCount := sh.submitWaiterCount - 1 }, .stop .readRunning)
    else some (sh, .panicked .submitWaiters)
  | .readRunning => some (sh, .stop (.lockQueue sh.acct.runningCount))
  | .lockQueue running => sh.lockQueue.map fun s => (s, .stop (.drain running []))
  | .drain running jobs =>
    match sh.globalQueue with
    | [] => some (sh, .stop (.unlockQueue running jobs))
    | j :: rest =>
      match ({ sh with globalQueue := rest }).takeQueued j with
      | some s => some (s, .stop (.drainWithdraw running jobs j))
      | none => some ({ sh with globalQueue := rest }, .stop (.drain running jobs))
  | .drainWithdraw running jobs j =>
    some (sh.lower .queued fun s => (s, .stop (.drainCancelling running jobs j)))
  | .drainCancelling running jobs j => some (sh.raise .cancelling, .stop (.drain running (jobs ++ [j])))
  | .unlockQueue running jobs =>
    some (sh.unlockQueue, .term (.stop jobs ⟨jobs.length, running, jobs.length⟩))
  | .notifyAll jobs report => some (sh.notifyAll.unlock, .stop (.next jobs report))
  | .next jobs report =>
    match jobs with
    | [] => some (sh, .stop (.finalNotify report))
    | j :: rest => some (sh, .cancel .call (.stop j rest report))
  | .finalNotify report => (sh.withLock notifyAll).map fun s => (s, .stop (.returned report))
  | .returned _ => none

/-- `PoolJobTicket::cancel_queued`. The failing `Weak::upgrade` at its start, after which it
returns `false` without any effect, is left out: the pool outlives the run. -/
def ticketStep (sh : Shared) (j : JobId) : TicketPc → Option (Shared × Pc)
  | .check caller =>
    if (sh.jobs j).entryLocked then none
    else match (sh.jobs j).entry with
      | some (.accepting owner cancelRequested) =>
        if owner = caller ∨ cancelRequested then some (sh, .ticket j (.returned false))
        else some (sh.setEntry j (.accepting owner true), .ticket j .waiting)
      | some .queued => some (sh, .ticket j .lockQueue)
      | _ => some (sh, .ticket j (.returned false))
  | .waiting =>
    if (sh.jobs j).entryLocked then none
    else match (sh.jobs j).entry with
      | some (.accepting _ _) | some .cancelling => some (sh, .ticket j .waiting)
      | entry => some (sh, .ticket j (.returned (entry = some .cancelled)))
  | .lockQueue => sh.lockQueue.map fun s => (s, .ticket j .remove)
  | .remove =>
    if j ∈ sh.globalQueue then
      match ({ sh with globalQueue := sh.globalQueue.erase j }).takeQueued j with
      | some s => some (s, .ticket j .withdraw)
      | none => some (sh, .ticket j .unlockFalse)
    else some (sh, .ticket j .unlockFalse)
  | .unlockFalse => some (sh.unlockQueue, .ticket j (.returned false))
  | .withdraw => some (sh.lower .queued fun s => (s, .ticket j .cancelling))
  | .cancelling => some (sh.raise .cancelling, .ticket j .unlockQueue)
  | .unlockQueue => some (sh.unlockQueue, .cancel .call (.ticket j))
  | .returned _ => none

/-- `PoolJob::cancel`, `finish_cancelled_job` and what its caller does next. -/
def cancelStep (sh : Shared) (k : CancelCaller) : CancelPc → Option (Shared × Pc)
  | .call => some (sh.record k.job .cancelBegin, .cancel .running k)
  | .running => some (sh.record k.job .cancelEnd, .cancel .addCancelled k)
  | .addCancelled => some (sh.raise .cancelled, .cancel .subCancelling k)
  | .subCancelling => some (sh.lower .cancelling fun s => (s, .cancel .subSlot k))
  | .subSlot => some (sh.lower .queueSlot fun s => (s.record k.job .accounted, .cancel .notifyCapacity k))
  | .notifyCapacity => some (sh.notifyCapacityChanged, .idle .inflight (.finishedCancelled k))
  | .done =>
    match k with
    | .submitter j => some ((sh.setEntry j .cancelled).finish j .cancelled, .submit j (.leave none))
    | .ticket j => some (sh.finish j .cancelled, .ticket j (.returned true))
    | .stop j rest report => some (sh.finish j .cancelled, .stop (.next rest report))

/-- `wait_until_idle`. -/
def joinStep (sh : Shared) : JoinPc → Option (Shared × Pc)
  | .addWaiter => some ({ sh with idleWaiterCount := sh.idleWaiterCount + 1 }, .join .lockState)
  | .lockState => sh.lock.map fun s => (s, .idle .inflight .join)
  | .park => some (sh.unlock, .join (.parked sh.epoch))
  | .parked _ => sh.lock.map fun s => (s, .idle .inflight .join)
  | .subWaiter =>
    if 0 < sh.idleWaiterCount then
      some ({ sh with idleWaiterCount := sh.idleWaiterCount - 1 }, .join .unlock)
    else some (sh, .panicked .idleWaiters)
  | .unlock => some (sh.unlock, .join .returned)
  | .returned => none

/-- The record of `stats` from the loaded counters and the monitor-protected state. -/
def Shared.stats (sh : Shared) (counters : PoolCounterSnapshot) (terminated : Bool) : ThreadPoolStats where
  lifecycle := if terminated then .terminated else sh.state.lifecycle
  corePoolSize := sh.state.corePoolSize
  maximumPoolSize := sh.state.maximumPoolSize
  queueCapacity := sh.acct.queueCapacity
  liveWorkers := sh.state.liveWorkers
  idleWorkers := sh.state.idleWorkers
  queuedTasks := counters.queuedTasks
  runningTasks := counters.runningTasks
  submittedTasks := counters.submittedTasks
  completedTasks := counters.completedTasks
  cancelledTasks := counters.cancelledTasks
  terminated := terminated

/-- `wait_for_termination`, `is_terminated`, `lifecycle`, `stats` and the subscription.
A timed wait that expires ends with `is_terminated`. -/
def observeStep (sh : Shared) (c : Outcome) : ObservePc → Option (Shared × Pc)
  | .lockState o => sh.lock.map fun s => (s, .term (.observer o))
  | .park => some (sh.unlock, .observe (.parked sh.epoch))
  | .parked _ =>
    match c with
    | .ok => sh.lock.map fun s => (s, .term (.observer .waitTermination))
    | .err => some (sh, .observe (.lockState .isTerminated))
  | .unlock o terminated =>
    match o with
    | .lifecycle =>
      let l := if terminated then .terminated else sh.state.lifecycle
      some ({ sh.unlock with observed := sh.observed ++ [l] }, .observe (.returnedLifecycle l))
    | .stats counters => some (sh.unlock, .observe (.returnedStats (sh.stats counters terminated)))
    | _ => some (sh.unlock, .observe (.returned terminated))
  | .snapshot r counters =>
    some (sh, .observe (
      match r.next with
      | some r' => .snapshot r' (r.load sh.acct counters)
      | none => .lockState (.stats (r.load sh.acct counters))))
  | .returned _ | .returnedLifecycle _ | .returnedStats _ => none

def setterStep (sh : Shared) : SetterPc → Option (Shared × Pc)
  | .corePoolSize n =>
    if sh.locked then none
    else if sh.state.maximumPoolSize < n then some (sh, .setter (.returned false))
    else some ({ sh with state := { sh.state with corePoolSize := n } }, .setter .notify)
  | .maximumPoolSize n =>
    if n = 0 then some (sh, .setter (.returned false))
    else if sh.locked then none
    else if n < sh.state.corePoolSize then some (sh, .setter (.returned false))
    else some ({ sh with state := { sh.state with maximumPoolSize := n } }, .setter .notify)
  | .keepAlive n =>
    if n = 0 then some (sh, .setter (.returned false))
    else (sh.withLock fun s => { s.notifyAll with state := { s.state with keepAlive := n } }).map
      fun s => (s, .setter (.returned true))
  | .allowCoreThreadTimeout allow =>
    (sh.withLock fun s =>
      { s.notifyAll with state := { s.state with allowCoreThreadTimeout := allow } }).map
      fun s => (s, .setter (.returned true))
  | .notify => some (sh.notifyAll, .setter (.returned true))
  | .returned _ => none

def NotifyCaller.resume : NotifyCaller → Pc
  | .acceptFailed j => .submit j (.discard .acceptancePanicked)
  | .departed j result => .submit j (.returned result)
  | .finishedRunning => .worker .takeLock
  | .finishedCancelled k => .cancel .done k

/-- Where a caller of `is_terminated_locked` goes on with the result `false`. -/
def TermCaller.refuted : TermCaller → Pc
  | .notify k => .notifyAll k
  | .shutdown => .shutdown .notifyAll
  | .stop jobs report => .stop (.notifyAll jobs report)
  | .observer .waitTermination => .observe .park
  | .observer o => .observe (.unlock o false)
  | .spawnFailed k => .spawn .unlock k
  | .spawnPublish k => .spawn .notify k
  | .unregister => .worker .unregisterUnlock
  | .unregisterPublish => .worker .unregisterNotify
  | .exit => .worker .exitNotify
  | .exitPublish => .worker .exitTerminated

/-- Where it goes on with the result `true`: callers of `publish_termination_locked`
publish, and `notify_if_terminated` evaluates once more through it. -/
def TermCaller.confirmed : TermCaller → Pc
  | .spawnFailed k => .term (.spawnPublish k)
  | .unregister => .term .unregisterPublish
  | .exit => .term .exitPublish
  | .observer .subscribe => .publish (.observer .subscribe)
  | .observer o => .observe (.unlock o true)
  | k => .publish k

def TermCaller.published : TermCaller → Pc
  | .observer o => .observe (.unlock o true)
  | k => k.refuted

def IdleCaller.decided (idle : Bool) : IdleCaller → Pc
  | .finishedRunning => if idle then .notifyLock .finishedRunning else .worker .takeLock
  | .finishedCancelled k => if idle then .notifyLock (.finishedCancelled k) else .cancel .done k
  | .join => .join (if idle then .subWaiter else .park)
  | .spawnFailed k => .term (if idle then .spawnPublish k else .spawnFailed k)
  | .term k => if idle then k.confirmed else k.refuted

def idleStep (sh : Shared) (r : IdleRead) (k : IdleCaller) : Pc :=
  if r.value sh.acct = 0 then
    match r.next with
    | some r' => .idle r' k
    | none => k.decided true
  else k.decided false

theorem NotifyCaller.resume_sound (k : NotifyCaller) (e : Panic) : k.resume ≠ .panicked e := by
  cases k <;> exact nofun

theorem TermCaller.refuted_sound (k : TermCaller) (e : Panic) : k.refuted ≠ .panicked e := by
  cases k with
  | observer o => cases o <;> exact nofun
  | _ => exact nofun

theorem TermCaller.published_sound (k : TermCaller) (e : Panic) : k.published ≠ .panicked e := by
  cases k with
  | observer o => exact nofun
  | _ => exact nofun

theorem IdleCaller.decided_sound (k : IdleCaller) (b : Bool) (e : Panic) : k.decided b ≠ .panicked e := by
  cases k with
  | term k =>
    cases b
    · exact k.refuted_sound e
    · cases k with
      | observer o => cases o <;> exact nofun
      | _ => exact nofun
  | _ => cases b <;> exact nofun

theorem idleStep_sound (sh : Shared) (r : IdleRead) (k : IdleCaller) (e : Panic) :
    idleStep sh r k ≠ .panicked e := by
  unfold idleStep
  split
  · split
    · exact nofun
    · exact k.decided_sound true e
  · exact k.decided_sound false e

def step (sh : Shared) (c : Outcome) : Pc → Option (Shared × Pc)
  | .submit j p => submitStep sh j c p
  | .spawn p k => spawnStep sh k c p
  | .prestart => prestartStep sh
  | .prestartUnlock => some (sh.unlock, .prestarted (.ok true))
  | .worker p => workerStep sh c p
  | .shutdown p => shutdownStep sh p
  | .stop p => stopStep sh p
  | .ticket j p => ticketStep sh j p
  | .cancel p k => cancelStep sh k p
  | .join p => joinStep sh p
  | .observe p => observeStep sh c p
  | .setter p => setterStep sh p
  | .notifyLock k => sh.lock.map fun s => (s, .term (.notify k))
  | .notifyAll k => some (sh.notifyAll.unlock, k.resume)
  | .term k => some (sh, if sh.state.isTerminatedHead then .idle .inflight (.term k) else k.refuted)
  | .publish k => some ({ sh with terminationTx := true }, k.published)
  | .idle r k => some (sh, idleStep sh r k)
  | .prestarted _ | .panicked _ => none

def spawned : Pc → Outcome → List Pc
  | .spawn .spawn _, .ok => [.worker .start]
  | _, _ => []

inductive Op where
  | submit (j : JobId) (caller : ThreadId)
  | prestartCoreThread
  | cancelQueued (j : JobId) (caller : ThreadId)
  | shutdown | stop | join | waitTermination | isTerminated | lifecycle | subscribe | stats
  | setCorePoolSize (n : ℕ) | setMaximumPoolSize (n : ℕ) | setKeepAlive (n : ℕ)
  | allowCoreThreadTimeout (allow : Bool)

/-- The first control point of a call. A job is consumed by its submission. -/
def invoke (sh : Shared) : Op → Option (Shared × Pc)
  | .submit j caller =>
    if (sh.jobs j).offered then none
    else some (sh.setJob j fun job => { job with offered := true, submitter := caller }, .submit j .enter)
  | .prestartCoreThread => some (sh, .prestart)
  | .cancelQueued j caller =>
    if (sh.jobs j).ticketed then some (sh, .ticket j (.check caller)) else none
  | .shutdown => some (sh, .shutdown .close)
  | .stop => some (sh, .stop .close)
  | .join => some (sh, .join .addWaiter)
  | .waitTermination => some (sh, .observe (.lockState .waitTermination))
  | .isTerminated => some (sh, .observe (.lockState .isTerminated))
  | .lifecycle => some (sh, .observe (.lockState .lifecycle))
  | .subscribe => some (sh, .observe (.lockState .subscribe))
  | .stats => some (sh, .observe (.snapshot .inflight ⟨0, 0, 0, 0, 0, 0, 0⟩))
  | .setCorePoolSize n => some (sh, .setter (.corePoolSize n))
  | .setMaximumPoolSize n => some (sh, .setter (.maximumPoolSize n))
  | .setKeepAlive n => some (sh, .setter (.keepAlive n))
  | .allowCoreThreadTimeout allow => some (sh, .setter (.allowCoreThreadTimeout allow))

def machine : Interleaving.Machine Shared Pc Outcome Op where
  step sh p c := (step sh c p).map fun r => (r.1, r.2, spawned p c)
  call := invoke

def init (config : ThreadPoolConfig) (tickets : JobId → Bool) : Interleaving.State Shared Pc :=
  ⟨.new config tickets, []⟩

end ThreadPools.Dynamic
