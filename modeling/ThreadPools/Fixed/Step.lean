import ThreadPools.Fixed.State
import ThreadPools.Interleaving.Machine

/-! # Steps of the fixed pool -/
namespace ThreadPools.Fixed

namespace Shared

def lower (sh : Shared) (c : Counter) (k : Shared → Shared × Pc) : Shared × Pc :=
  match sh.acct.sub c with
  | some a => k (sh.setAcct a)
  | none => (sh, .panicked (.counter c))

def raise (sh : Shared) (c : Counter) : Shared := sh.setAcct (sh.acct.add c)

end Shared

open Shared

/-- `submit`, `wake_one_idle_worker` and the drop of the submit guard. -/
def submitStep (sh : Shared) (j : JobId) (c : Outcome) : SubmitPc → Option (Shared × Pc)
  | .enter =>
    match sh.acct.tryEnter with
    | some a => some (sh.setAcct a, .submit j .reserve)
    | none => some (sh, .submit j (.returned (some (.rejected .shutdown))))
  | .reserve =>
    match sh.acct.tryReserveBoundedSlot with
    | some a => some (sh.setAcct a, .submit j .callAccept)
    | none => some (sh, .submit j (.discard (.rejected .saturated)))
  | .callAccept => some (sh.record j .acceptBegin, .submit j .accepting)
  | .accepting =>
    match c with
    | .ok => some (sh.record j .acceptEnd, .submit j .publishSubmitted)
    | .err => some (sh.record j .acceptPanicked, .submit j .rollback)
  | .rollback => some (sh.lower .queueSlot fun s => (s, .submit j .rollbackNotify))
  | .rollbackNotify => (sh.withLock notifyAll).map fun s => (s, .submit j (.discard .acceptancePanicked))
  | .discard error => some (sh, .submit j (.leave (some error)))
  | .publishSubmitted => some (sh.raise .submitted, .submit j .publishQueued)
  | .publishQueued => some (sh.raise .queued, .submit j .push)
  | .push => some ({ sh with globalQueue := sh.globalQueue ++ [j] }, .submit j .loadIdle)
  | .loadIdle =>
    if sh.idleWorkerCount = 0 then some (sh, .submit j (.leave none))
    else some (sh, .submit j (.raiseToken sh.idleWorkerCount))
  | .raiseToken idleWorkers =>
    if sh.pendingWorkerWakes < idleWorkers then
      some ({ sh with pendingWorkerWakes := sh.pendingWorkerWakes + 1 }, .submit j .broadcast)
    else some (sh, .submit j (.leave none))
  | .broadcast => (sh.withLock notifyAll).map fun s => (s, .submit j (.leave none))
  | .leave result =>
    match sh.acct.leave with
    | some (a, last) =>
      some (sh.setAcct a, .submit j (if last then .departGate result else .returned result))
    | none => some (sh, .panicked .admission)
  | .departGate result =>
    some (sh, .submit j (if sh.acct.isAdmissionOpen then .departWaiters result else .departNotify result))
  | .departWaiters result =>
    some (sh, .submit j (if 0 < sh.idleWaiterCount then .departNotify result else .returned result))
  | .departNotify result => (sh.withLock notifyAll).map fun s => (s, .submit j (.returned result))
  | .returned _ => none

/-- Number of short queue probes before a fixed worker parks. -/
def idleSpinLimit : ℕ := 256

/-- `FixedWorker::run`, `try_take_job`, `finish_running_job`,
`wait_for_fixed_pool_work`, `spin_for_fixed_pool_work` and `worker_exited`. -/
def workerStep (sh : Shared) : WorkerPc → Option (Shared × Pc)
  | .start => some (sh, .worker .takeStop)
  | .takeStop => some (sh, .worker (if sh.stopNow then .lockState else .steal))
  | .steal =>
    match sh.globalQueue with
    | [] => some (sh, .worker .lockState)
    | j :: rest => some ({ sh with globalQueue := rest }, .worker (.acceptStop j))
  | .acceptStop j => some (sh, .worker (if sh.stopNow then .withdraw j else .claimQueued j))
  | .claimQueued j => some (sh.lower .queued fun s => (s, .worker (.claimRunning j)))
  | .claimRunning j => some (sh.raise .running, .worker (.claimSlot j))
  | .claimSlot j => some (sh.lower .queueSlot fun s => (s, .worker (.callRun j)))
  | .withdraw j => some (sh.lower .queued fun s => (s, .worker (.cancelling j)))
  | .cancelling j => some (sh.raise .cancelling, .cancel .call (.worker j))
  | .callRun j => some (sh.record j .runBegin, .worker (.running j))
  | .running j => some (sh.record j .runEnd, .worker (.finishCompleted j))
  | .finishCompleted j => some (sh.raise .completed, .worker (.finishRunning j))
  | .finishRunning j =>
    some (sh.lower .running fun s =>
      ((s.record j .accounted).finish j .completed, .idle .inflight .finishedRunning))
  | .finishNotify => (sh.withLock notifyAll).map fun s => (s, .worker .takeStop)
  | .lockState => sh.lock.map fun s => (s, .worker .dispatch)
  | .dispatch =>
    match sh.state.lifecycle with
    | .running => some (sh, .worker .waitQueued)
    | .shuttingDown => some (sh, .worker .drainQueued)
    | .stopping | .terminated => some (sh.unlock, .worker .stopHook)
  | .waitQueued =>
    if 0 < sh.acct.queuedCount then some (sh, .worker .unlock)
    else some (sh.unlock, .worker (if sh.poolSize ≤ 4 then .relock else .spinQueued 0))
  | .spinQueued probes =>
    some (sh, .worker (if 0 < sh.acct.queuedCount then .takeStop else .spinPending probes))
  | .spinPending probes =>
    some (sh, .worker (if 0 < sh.pendingWorkerWakes then .takeStop else .spinGate probes))
  | .spinGate probes =>
    some (sh, .worker (
      if !sh.acct.isAdmissionOpen then .relock
      else if probes + 1 < idleSpinLimit then .spinQueued (probes + 1) else .relock))
  | .relock =>
    sh.lock.map fun s => (s, .worker (if s.state.lifecycle = .running then .mark else .dispatch))
  | .mark => some (sh.markWorkerIdle, .worker .readQueued)
  | .readQueued => some (sh, .worker (if 0 < sh.acct.queuedCount then .unmark false else .readPending))
  | .readPending => some (sh, .worker (if 0 < sh.pendingWorkerWakes then .unmark false else .park))
  | .park => some (sh.unlock, .worker (.parked sh.epoch))
  | .parked _ => sh.lock.map fun s => (s, .worker (.unmark true))
  | .unmark again =>
    if 0 < sh.state.idleWorkers ∧ 0 < sh.idleWorkerCount then
      some (sh.unmarkWorkerIdle, .worker (.consume again))
    else some (sh, .panicked .idleWorkers)
  | .consume again =>
    some ({ sh with pendingWorkerWakes := sh.pendingWorkerWakes - 1 },
      .worker (if again then .dispatch else .unlock))
  | .unlock => some (sh.unlock, .worker .takeStop)
  | .drainQueued => some (sh, .worker (if 0 < sh.acct.queuedCount then .unlock else .drainInflight))
  | .drainInflight =>
    if sh.acct.inflightCount = 0 then some (sh.unlock, .worker .stopHook)
    else some (sh, .worker .drainMark)
  | .drainMark => some (sh.markWorkerIdle, .worker .drainReadQueued)
  | .drainReadQueued =>
    some (sh, .worker (if sh.acct.queuedCount = 0 then .drainReadInflight else .unmark true))
  | .drainReadInflight =>
    some (sh, .worker (if 0 < sh.acct.inflightCount then .drainPark else .unmark true))
  | .drainPark => some (sh.unlock, .worker (.drainParked sh.epoch))
  | .drainParked _ => sh.lock.map fun s => (s, .worker (.unmark true))
  | .stopHook => some (sh, .worker .exit)
  | .exit =>
    if sh.locked then none
    else if 0 < sh.state.liveWorkers then
      some ({ sh.notifyAll with state := { sh.state with liveWorkers := sh.state.liveWorkers - 1 } },
        .worker .exited)
    else some (sh, .panicked .liveWorkers)
  | .exited => none

def shutdownStep (sh : Shared) : ShutdownPc → Option (Shared × Pc)
  | .close => some (sh.setAcct sh.acct.closeAdmission, .shutdown .lockState)
  | .lockState =>
    (sh.withLock fun s =>
      (if s.state.lifecycle = .running then s.setLifecycle .shuttingDown else s).notifyAll).map
      fun s => (s, .shutdown .returned)
  | .returned => none

/-- The report of a stop call that drained `drained` jobs and read the two counters
again after it began to cancel them. -/
def StopInfo.report (info : StopInfo) (drained cancelling cancelled : ℕ) : StopReport :=
  let cancellingSinceStop := cancelling - info.cancelling
  let cancelledSinceStop := cancelled - info.cancelled
  let queued :=
    if info.isNewStop then drained + (cancellingSinceStop - drained) + cancelledSinceStop else drained
  ⟨queued, info.running, queued⟩

/-- `stop` with `drain_visible_queued_jobs`. -/
def stopStep (sh : Shared) : StopPc → Option (Shared × Pc)
  | .beforeCancelling => some (sh, .stop (.beforeCancelled (sh.acct.count .cancelling)))
  | .beforeCancelled cancelling =>
    some (sh, .stop (.close ⟨false, cancelling, sh.acct.count .cancelled, 0⟩))
  | .close info => some (sh.setAcct sh.acct.closeAdmission, .stop (.storeStop info))
  | .storeStop info => some ({ sh with stopNow := true }, .stop (.lockState info))
  | .lockState info =>
    sh.lock.map fun s =>
      match s.state.lifecycle with
      | .running | .shuttingDown => (s.setLifecycle .stopping, .stop (.readInflight { info with isNewStop := true }))
      | .stopping | .terminated => (s, .stop (.readInflight info))
  | .readInflight info =>
    some (sh, .stop (if 0 < sh.acct.inflightCount then .addWaiter info else .readRunning info))
  | .addWaiter info =>
    some ({ sh with submitWaiterCount := sh.submitWaiterCount + 1 }, .stop (.recheck info))
  | .recheck info => some (sh, .stop (if 0 < sh.acct.inflightCount then .park info else .subWaiter info))
  | .park info => some (sh.unlock, .stop (.parked info sh.epoch))
  | .parked info _ => sh.lock.map fun s => (s, .stop (.recheck info))
  | .subWaiter info =>
    if 0 < sh.submitWaiterCount then
      some ({ sh with submitWaiterCount := sh.submitWaiterCount - 1 }, .stop (.readRunning info))
    else some (sh, .panicked .submitWaiters)
  | .readRunning info => some (sh, .stop (.drain { info with running := sh.acct.runningCount } []))
  | .drain info jobs =>
    match sh.globalQueue with
    | [] => some (sh, .stop (.begin info [] jobs))
    | j :: rest => some ({ sh with globalQueue := rest }, .stop (.drain info (jobs ++ [j])))
  | .begin info begun jobs =>
    match jobs with
    | [] => some (sh, .stop (.afterCancelling info begun))
    | j :: rest => some (sh.lower .queued fun s => (s, .stop (.beginCancelling info begun j rest)))
  | .beginCancelling info begun j jobs =>
    some (sh.raise .cancelling, .stop (.begin info (begun ++ [j]) jobs))
  | .afterCancelling info jobs => some (sh, .stop (.afterCancelled info jobs (sh.acct.count .cancelling)))
  | .afterCancelled info jobs cancelling =>
    some (sh, .stop (.notifyAll jobs (info.report jobs.length cancelling (sh.acct.count .cancelled))))
  | .notifyAll jobs report => some (sh.notifyAll.unlock, .stop (.next jobs report))
  | .next jobs report =>
    match jobs with
    | [] => some (sh, .stop (.finalNotify report))
    | j :: rest => some (sh, .cancel .call (.stop j rest report))
  | .finalNotify report => (sh.withLock notifyAll).map fun s => (s, .stop (.returned report))
  | .returned _ => none

/-- `PoolJob::cancel`, `finish_cancelled_job` and what its caller does next. -/
def cancelStep (sh : Shared) (k : CancelCaller) : CancelPc → Option (Shared × Pc)
  | .call => some (sh.record k.job .cancelBegin, .cancel .running k)
  | .running => some (sh.record k.job .cancelEnd, .cancel .addCancelled k)
  | .addCancelled => some (sh.raise .cancelled, .cancel .subCancelling k)
  | .subCancelling => some (sh.lower .cancelling fun s => (s, .cancel .subSlot k))
  | .subSlot => some (sh.lower .queueSlot fun s => (s.record k.job .accounted, .cancel .notify k))
  | .notify => (sh.withLock notifyAll).map fun s => (s, .cancel .done k)
  | .done =>
    match k with
    | .worker j => some (sh.finish j .cancelled, .worker .lockState)
    | .stop j rest report => some (sh.finish j .cancelled, .stop (.next rest report))

/-- `wait_until_idle`. -/
def joinStep (sh : Shared) : JoinPc → Option (Shared × Pc)
  | .addWaiter => some ({ sh with idleWaiterCount := sh.idleWaiterCount + 1 }, .join .lockState)
  | .lockState => sh.lock.map fun s => (s, .idle .inflight .join)
  | .park => some (sh.unlock, .join (.parked sh.epoch))
  | .parked _ => sh.lock.map fun s => (s, .idle .inflight .join)
  | .subWaiter =>
    if 0 < sh.idleWaiterCount then
      some ({ sh with idleWaiterCount := sh.idleWaiterCount - 1 }, .join .unlock)
    else some (sh, .panicked .idleWaiters)
  | .unlock => some (sh.unlock, .join .returned)
  | .returned => none

def Observer.decided (terminated : Bool) : Observer → Pc
  | .waitTermination => .observe (if terminated then .unlock .waitTermination true else .park)
  | o => .observe (.unlock o terminated)

/-- `wait_for_termination`, `is_terminated` and `lifecycle`. A timed wait that expires
ends with `is_terminated`. -/
def observeStep (sh : Shared) (c : Outcome) : ObservePc → Option (Shared × Pc)
  | .lockState o => sh.lock.map fun s => (s, .observe (.term o))
  | .term o =>
    if sh.state.isTerminatedHead then some (sh, .idle .inflight (.term o)) else some (sh, o.decided false)
  | .park => some (sh.unlock, .observe (.parked sh.epoch))
  | .parked _ =>
    match c with
    | .ok => sh.lock.map fun s => (s, .observe (.term .waitTermination))
    | .err => some (sh, .observe (.lockState .isTerminated))
  | .unlock o terminated =>
    match o with
    | .lifecycle =>
      let l := if terminated then .terminated else sh.state.lifecycle
      some ({ sh.unlock with observed := sh.observed ++ [l] }, .observe (.returnedLifecycle l))
    | _ => some (sh.unlock, .observe (.returned terminated))
  | .returned _ | .returnedLifecycle _ => none

def IdleCaller.decided (idle : Bool) : IdleCaller → Pc
  | .finishedRunning => .worker (if idle then .finishNotify else .takeStop)
  | .join => .join (if idle then .subWaiter else .park)
  | .term o => o.decided idle

def idleStep (sh : Shared) (r : IdleRead) (k : IdleCaller) : Pc :=
  if r.value sh.acct = 0 then
    match r.next with
    | some r' => .idle r' k
    | none => k.decided true
  else k.decided false

theorem idleStep_sound (sh : Shared) (r : IdleRead) (k : IdleCaller) (e : Panic) :
    idleStep sh r k ≠ .panicked e := by
  unfold idleStep
  repeat' split
  all_goals
    cases k with
    | term o => cases o <;> exact nofun
    | _ => exact nofun

def step (sh : Shared) (c : Outcome) : Pc → Option (Shared × Pc)
  | .submit j p => submitStep sh j c p
  | .worker p => workerStep sh p
  | .shutdown p => shutdownStep sh p
  | .stop p => stopStep sh p
  | .cancel p k => cancelStep sh k p
  | .join p => joinStep sh p
  | .observe p => observeStep sh c p
  | .idle r k => some (sh, idleStep sh r k)
  | .panicked _ => none

inductive Op where
  | submit (j : JobId)
  | shutdown | stop | join | waitTermination | isTerminated | lifecycle

def invoke (sh : Shared) : Op → Option (Shared × Pc)
  | .submit j =>
    if sh.offered j then none
    else some ({ sh with offered := Function.update sh.offered j true }, .submit j .enter)
  | .shutdown => some (sh, .shutdown .close)
  | .stop => some (sh, .stop .beforeCancelling)
  | .join => some (sh, .join .addWaiter)
  | .waitTermination => some (sh, .observe (.lockState .waitTermination))
  | .isTerminated => some (sh, .observe (.lockState .isTerminated))
  | .lifecycle => some (sh, .observe (.lockState .lifecycle))

def machine : Interleaving.Machine Shared Pc Outcome Op where
  step sh p c := (step sh c p).map fun r => (r.1, r.2, [])
  call := invoke

def init (config : FixedThreadPoolConfig) : Interleaving.State Shared Pc :=
  ⟨.new config, List.replicate config.poolSize (.worker .start)⟩

end ThreadPools.Fixed
