import ThreadPools.Dynamic.Gauges
import ThreadPools.Wakeup.Invariant

/-! # The dynamic pool as an elastic wake-up protocol

The roles forget the jobs in acceptance, execution and cancellation. What the
protocol reads as totals over the roles is what the pool reads from its counters.
-/
namespace ThreadPools.Dynamic
open Interleaving
open Wakeup (Role Place Mode Board Rules)

def mode : ExecutorServiceLifecycle → Mode
  | .running => .admitting
  | .shuttingDown => .draining
  | .stopping | .terminated => .halted

def board (sh : Shared) : Board JobId where
  mode := mode sh.state.lifecycle
  closed := sh.acct.admission.closed
  items := sh.globalQueue
  tokens := sh.pendingWorkerWakes
  epoch := sh.epoch

def SubmitPc.role (j : JobId) : SubmitPc → Role JobId
  | .enter | .departGate _ | .departWaiters _ | .returned _ => .plain .outside false
  | .lockState | .discard _ | .rollbackNotify | .setRejected | .requestedWithdraw
  | .requestedCancelling | .requestedUnlock | .leave _ => .plain .inside false
  | .checkState | .rejectUnlock _ => .plain .inside true
  | .reserveSlot | .handoff => .vouched
  | .unlockReserved => .plain .reserved true
  | .beginAccept | .callAccept | .accepting | .rollback | .lockQueue | .publishSubmitted
  | .publishQueued | .decideEntry => .plain .reserved false
  | .unlockQueue | .loadIdle => .pushed j
  | .raiseToken idleWorkers => .loaded j idleWorkers
  | .broadcast => .raised j

def WorkerPc.role : WorkerPc → Role JobId
  | .overMaximum | .mark _ | .unlock | .drainQueued | .drainMark => .plain .fresh true
  | .readQueued _ | .retireQueued | .unmark false | .drainReadQueued => .marked
  | .readPending _ => .seen
  | .park _ => .clear
  | .parked _ epoch | .drainParked epoch => .parked epoch
  | .retirePending => .retireSeen
  | .retireInflight => .retireClear
  | .unmark true => .retireSure
  | .consume false => .consuming
  | .consume true => .retireConsuming
  | .drainInflight => .exitSeen
  | .drainReadInflight => .drainSeen
  | .drainPark => .drainClear
  | .unregister => .plain .leaving true
  | .unregisterCount | .unregisterNotify | .unregisterUnlock | .exitTerminated | .exitNotify =>
    .plain .outside true
  | .stopHook | .exitLock | .exited => .plain .outside false
  | _ => .plain .fresh false

def SpawnCaller.place : SpawnCaller → Place
  | .submit _ => .inside
  | .prestart => .outside

def SpawnPc.role (k : SpawnCaller) : SpawnPc → Role JobId
  | .spawn | .rollback => .credit k.inside
  | .liveCount =>
    match k with
    | .submit _ => .vouched
    | .prestart => .plain .outside true
  | .notify | .unlock => .plain k.place true

def CancelCaller.place : CancelCaller → Place
  | .submitter _ => .inside
  | .ticket _ | .stop _ _ _ => .outside

def Pc.place : Pc → Place
  | .submit _ p => if p.inside then .inside else .outside
  | .spawn _ k => k.place
  | .worker p => if p.live then .fresh else .outside
  | .cancel _ k => k.place
  | _ => .outside

def Pc.role : Pc → Role JobId
  | .submit j p => p.role j
  | .spawn p k => p.role k
  | .worker p => p.role
  | p => .plain p.home.place p.locks

def rules (exitGuard parkGuard : Prop) : Rules := ⟨False, 0, exitGuard, parkGuard⟩

-- The totals of the protocol are the gauges of the pool.
theorem NotifyCaller.role_eq (k : NotifyCaller) :
    k.resume.place.within = k.resume.inside.toNat ∧ k.resume.place.works = k.resume.live.toNat ∧
      k.resume.marked = false := by
  cases k with
  | finishedCancelled k => cases k <;> exact ⟨rfl, rfl, rfl⟩
  | _ => exact ⟨rfl, rfl, rfl⟩

theorem TermCaller.role_eq (k : TermCaller) :
    k.home.place.within = k.home.inside.toNat ∧ k.home.place.works = k.home.live.toNat ∧
      k.home.marked = false := by
  cases k with
  | notify k => exact k.role_eq
  | observer o => cases o <;> exact ⟨rfl, rfl, rfl⟩
  | spawnFailed k => cases k <;> exact ⟨rfl, rfl, rfl⟩
  | spawnPublish k => cases k <;> exact ⟨rfl, rfl, rfl⟩
  | _ => exact ⟨rfl, rfl, rfl⟩

theorem idle_role_eq (r : IdleRead) (k : IdleCaller) :
    (Pc.idle r k).home.place.within = (Pc.idle r k).home.inside.toNat ∧
      (Pc.idle r k).home.place.works = (Pc.idle r k).home.live.toNat ∧ (Pc.idle r k).home.marked = false := by
  cases k with
  | term k => exact k.role_eq
  | finishedCancelled k => cases k <;> exact ⟨rfl, rfl, rfl⟩
  | spawnFailed k => cases k <;> exact ⟨rfl, rfl, rfl⟩
  | _ => exact ⟨rfl, rfl, rfl⟩

/-- The role of a control point contributes what the control point contributes. -/
theorem Pc.role_weights (p : Pc) :
    p.role.holds = Gauge.monitor.weight p ∧ p.role.inside = Gauge.inflight.weight p ∧
      p.role.works = Gauge.liveWorkers.weight p ∧ p.role.marks = Gauge.idleWorkerCount.weight p := by
  cases p with
  | submit j p => cases p <;> exact ⟨rfl, rfl, rfl, rfl⟩
  | spawn p k => cases p <;> cases k <;> exact ⟨rfl, rfl, rfl, rfl⟩
  | worker p =>
    cases p with
    | unmark retire => cases retire <;> exact ⟨rfl, rfl, rfl, rfl⟩
    | consume retire => cases retire <;> exact ⟨rfl, rfl, rfl, rfl⟩
    | _ => exact ⟨rfl, rfl, rfl, rfl⟩
  | cancel p k => cases k <;> exact ⟨rfl, rfl, rfl, rfl⟩
  | notifyLock k =>
    obtain ⟨h₁, h₂, h₃⟩ := k.role_eq
    exact ⟨rfl, h₁, h₂, by simp [Gauge.weight, Pc.home, h₃, Pc.role, Role.marks]⟩
  | notifyAll k =>
    obtain ⟨h₁, h₂, h₃⟩ := k.role_eq
    exact ⟨rfl, h₁, h₂, by simp [Gauge.weight, Pc.home, h₃, Pc.role, Role.marks]⟩
  | term k =>
    obtain ⟨h₁, h₂, h₃⟩ := k.role_eq
    exact ⟨rfl, h₁, h₂, by simp [Gauge.weight, Pc.home, h₃, Pc.role, Role.marks]⟩
  | publish k =>
    obtain ⟨h₁, h₂, h₃⟩ := k.role_eq
    exact ⟨rfl, h₁, h₂, by simp [Gauge.weight, Pc.home, h₃, Pc.role, Role.marks]⟩
  | idle r k =>
    obtain ⟨h₁, h₂, h₃⟩ := idle_role_eq r k
    exact ⟨rfl, h₁, h₂, by simp [Gauge.weight, h₃, Pc.role, Role.marks]⟩
  | _ => exact ⟨rfl, rfl, rfl, rfl⟩

end ThreadPools.Dynamic
