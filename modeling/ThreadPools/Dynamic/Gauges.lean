import ThreadPools.Dynamic.Arrivals

/-! # Locks and headcounts of the dynamic pool

Each of these quantities is raised and lowered by the actors themselves, so it
equals the total of what the control points contribute. For the two mutexes this
is mutual exclusion; for the others it makes the underflow assertions unreachable.
-/
namespace ThreadPools.Dynamic
open Interleaving

inductive Gauge where
  | monitor | queue | inflight | liveWorkers | liveWorkerCount | exitingWorkers
  | idleWorkers | idleWorkerCount | submitWaiters | idleWaiters

def Gauge.value (sh : Shared) : Gauge → ℕ
  | .monitor => sh.locked.toNat
  | .queue => sh.queueLocked.toNat
  | .inflight => sh.acct.inflightCount
  | .liveWorkers => sh.state.liveWorkers
  | .liveWorkerCount => sh.liveWorkerCount
  | .exitingWorkers => sh.state.exitingWorkers
  | .idleWorkers => sh.state.idleWorkers
  | .idleWorkerCount => sh.idleWorkerCount
  | .submitWaiters => sh.submitWaiterCount
  | .idleWaiters => sh.idleWaiterCount

def SubmitPc.locks : SubmitPc → Bool
  | .checkState | .reserveSlot | .handoff | .unlockReserved | .rejectUnlock _ => true
  | _ => false

def WorkerPc.locks : WorkerPc → Bool
  | .overMaximum | .mark _ | .readQueued _ | .readPending _ | .park _
  | .retireQueued | .retirePending | .retireInflight | .unmark _ | .consume _ | .unlock
  | .drainQueued | .drainInflight | .drainMark | .drainReadQueued | .drainReadInflight | .drainPark
  | .unregister | .unregisterCount | .unregisterNotify | .unregisterUnlock
  | .exitTerminated | .exitNotify => true
  | _ => false

def StopPc.locks : StopPc → Bool
  | .readInflight | .addWaiter | .recheck | .park | .subWaiter | .readRunning | .lockQueue _
  | .drain _ _ | .drainWithdraw _ _ _ | .drainCancelling _ _ _ | .unlockQueue _ _ | .notifyAll _ _ => true
  | _ => false

def JoinPc.locks : JoinPc → Bool
  | .park | .subWaiter | .unlock => true
  | _ => false

def ObservePc.locks : ObservePc → Bool
  | .park | .unlock _ _ => true
  | _ => false

def Pc.locks : Pc → Bool
  | .submit _ p => p.locks
  | .spawn _ _ | .prestartUnlock => true
  | .worker p => p.locks
  | .shutdown p => p == .notifyAll
  | .stop p => p.locks
  | .join p => p.locks
  | .observe p => p.locks
  | .notifyAll _ | .term _ | .publish _ => true
  | .idle _ .finishedRunning | .idle _ (.finishedCancelled _) => false
  | .idle _ _ => true
  | _ => false

def SubmitPc.queues : SubmitPc → Bool
  | .publishSubmitted | .publishQueued | .decideEntry | .requestedWithdraw | .requestedCancelling
  | .requestedUnlock | .unlockQueue => true
  | _ => false

def WorkerPc.queues : WorkerPc → Bool
  | .takeStop | .takePop | .takeNone | .claimQueued _ | .claimRunning _ | .claimSlot _
  | .claimNotify _ | .claimUnlock _ => true
  | _ => false

def StopPc.queues : StopPc → Bool
  | .drain _ _ | .drainWithdraw _ _ _ | .drainCancelling _ _ _ | .unlockQueue _ _ => true
  | _ => false

def TicketPc.queues : TicketPc → Bool
  | .remove | .unlockFalse | .withdraw | .cancelling | .unlockQueue => true
  | _ => false

def Pc.queues : Pc → Bool
  | .submit _ p => p.queues
  | .worker p => p.queues
  | .stop p => p.queues
  | .ticket _ p => p.queues
  | _ => false

def SubmitPc.inside : SubmitPc → Bool
  | .enter | .departGate _ | .departWaiters _ | .returned _ => false
  | _ => true

def WorkerPc.live : WorkerPc → Bool
  | .unregisterCount | .unregisterNotify | .unregisterUnlock | .stopHook
  | .exitLock | .exitTerminated | .exitNotify | .exited => false
  | _ => true

def WorkerPc.exiting : WorkerPc → Bool
  | .unregisterCount | .unregisterNotify | .unregisterUnlock | .stopHook | .exitLock => true
  | _ => false

def WorkerPc.marked : WorkerPc → Bool
  | .readQueued _ | .readPending _ | .park _ | .parked _ _ | .retireQueued | .retirePending
  | .retireInflight | .unmark _ | .drainReadQueued | .drainReadInflight | .drainPark | .drainParked _ => true
  | _ => false

def SpawnCaller.inside : SpawnCaller → Bool
  | .submit _ => true
  | .prestart => false

def CancelCaller.inside : CancelCaller → Bool
  | .submitter _ => true
  | .ticket _ | .stop _ _ _ => false

def Pc.inside : Pc → Bool
  | .submit _ p => p.inside
  | .spawn _ k => k.inside
  | .cancel _ k => k.inside
  | _ => false

/-- A reserved worker is counted before its thread exists. -/
def SpawnPc.credit : SpawnPc → Bool
  | .spawn | .rollback => true
  | _ => false

def Pc.live : Pc → Bool
  | .worker p => p.live
  | .spawn p _ => p.credit
  | _ => false

def Pc.exiting : Pc → Bool
  | .worker p => p.exiting
  | _ => false

def Pc.marked : Pc → Bool
  | .worker p => p.marked
  | _ => false

def Pc.submitWaits : Pc → Bool
  | .stop .recheck | .stop .park | .stop (.parked _) | .stop .subWaiter => true
  | _ => false

def Pc.idleWaits : Pc → Bool
  | .join .lockState | .join .park | .join (.parked _) | .join .subWaiter => true
  | _ => false

namespace Gauge

def weight (g : Gauge) (p : Pc) : ℕ :=
  match g with
  | .monitor => p.locks.toNat
  | .queue => p.queues.toNat
  | .inflight => p.home.inside.toNat
  | .liveWorkers => p.home.live.toNat
  | .liveWorkerCount =>
    match p with
    | .worker .unregisterCount => 1
    | .spawn _ _ => 0
    | p => p.home.live.toNat
  | .exitingWorkers => p.home.exiting.toNat
  | .idleWorkers | .idleWorkerCount => p.home.marked.toNat
  | .submitWaiters => p.home.submitWaits.toNat
  | .idleWaiters => p.home.idleWaits.toNat

/-- A started worker that its creator has still to add to `live_worker_count`. -/
def owed (g : Gauge) (p : Pc) : ℕ :=
  match g, p with
  | .liveWorkerCount, .spawn .liveCount _ => 1
  | _, _ => 0

end Gauge

/-- Every gauge shows the total of its contributions. -/
def Gauged (sh : Shared) (ps : Multiset Pc) : Prop :=
  ∀ g : Gauge, g.value sh + total g.owed ps = total g.weight ps

def Balanced (sh : Shared) (p : Pc) (sh' : Shared) (p' : Pc) (new : List Pc) : Prop :=
  ∀ g : Gauge, g.value sh' + g.owed p' + g.weight p =
    g.value sh + g.owed p + g.weight p' + total g.weight (new : Multiset Pc)

variable {sh sh' : Shared} {p' : Pc} {c : Outcome} {j : JobId}

-- The ways in which a single gauge moves.
theorem balance_lock {b : Bool} (h : ¬ b = true) : true.toNat + 0 + 0 = b.toNat + 0 + 1 + 0 := by
  simp [Bool.eq_false_iff.mpr h]

theorem balance_unlock {b : Bool} (h : b = true) : false.toNat + 0 + 1 = b.toNat + 0 + 0 + 0 := by
  simp [h]

theorem balance_visit {b : Bool} (h : ¬ b = true) : false.toNat + 0 + 0 = b.toNat + 0 + 0 + 0 := by
  simp [Bool.eq_false_iff.mpr h]

theorem balance_sub {v : ℕ} (h : 0 < v) : v - 1 + 0 + 1 = v + 0 + 0 + 0 := by omega

theorem balance_shift {v v' : ℕ} (h : v' = v + 1) : v' + 0 + 0 = v + 0 + 1 + 0 := by omega

theorem balance_back {v v' : ℕ} (h : v' + 1 = v) : v' + 0 + 1 = v + 0 + 0 + 0 := by omega

theorem balance_keep {v v' x y : ℕ} (h : v' = v) : v' + x + y = v + x + y + 0 := by rw [h, Nat.add_zero]

theorem takeQueued_eq_some {s : Shared} (h : sh.takeQueued j = some s) : s = sh.setEntry j .taken := by
  unfold Shared.takeQueued at h
  split at h
  · exact (Option.some.inj h).symm
  · cases h

theorem workerStep_balanced {p : WorkerPc} (hl : p.locks = true → sh.locked = true)
    (hq : p.queues = true → sh.queueLocked = true) (h : workerStep sh c p = some (sh', p'))
    (hn : ∀ e, p' ≠ .panicked e) : Balanced sh (.worker p) sh' p' [] := by
  intro g
  cases p with
  | takePop =>
    simp only [workerStep] at h
    split at h
    · cases h
      cases g <;> rfl
    · split at h
      · rename_i hs
        obtain rfl := takeQueued_eq_some hs
        cases h
        cases g <;> rfl
      · cases h
        cases g <;> rfl
  | _ =>
    simp only [workerStep, Shared.lock, Shared.lockQueue, Shared.lower] at h
    repeat' split at h
    all_goals first | (simp only [Option.map_some] at h; (repeat' split at h) <;> cases h) | cases h
    all_goals first | exact absurd rfl (hn _) | cases g
    all_goals first
      | rfl
      | exact balance_lock ‹_›
      | exact balance_unlock (hl rfl)
      | exact balance_unlock (hq rfl)
      | exact balance_visit ‹_›
      | exact balance_sub ‹_›
      | exact balance_sub (And.left ‹_›)
      | exact balance_sub (And.right ‹_›)
      | exact balance_keep (PoolAccounting.inflightCount_of_sub ‹_›)

theorem submitStep_balanced {p : SubmitPc} (hl : p.locks = true → sh.locked = true)
    (hq : p.queues = true → sh.queueLocked = true) (h : submitStep sh j c p = some (sh', p'))
    (hn : ∀ e, p' ≠ .panicked e) : Balanced sh (.submit j p) sh' p' [] := by
  intro g
  cases p with
  | enter =>
    simp only [submitStep] at h
    split at h
    · cases h
      rename_i ha
      cases g with
      | inflight => exact balance_shift (PoolAccounting.inflightCount_of_tryEnter ha)
      | _ => rfl
    · cases h
      cases g <;> rfl
  | reserveSlot =>
    simp only [submitStep] at h
    split at h
    · rename_i ha
      obtain rfl := PoolAccounting.tryReserveBoundedSlot_eq ha
      cases h
      cases g <;> rfl
    · split at h <;> cases h
      all_goals cases g <;> rfl
  | leave result =>
    simp only [submitStep] at h
    split at h
    · rename_i a last ha
      cases last <;> cases h
      all_goals
        cases g with
        | inflight => exact balance_back (PoolAccounting.inflightCount_of_leave ha)
        | _ => rfl
    · cases h
      exact absurd rfl (hn _)
  | _ =>
    simp only [submitStep, Shared.lock, Shared.lockQueue, Shared.withLock, Shared.lower] at h
    repeat' split at h
    all_goals cases h
    all_goals first | exact absurd rfl (hn _) | cases g
    all_goals first
      | rfl
      | exact balance_lock ‹_›
      | exact balance_unlock (hl rfl)
      | exact balance_unlock (hq rfl)
      | exact balance_keep (PoolAccounting.inflightCount_of_sub ‹_›)

theorem spawnStep_balanced {p : SpawnPc} {k : SpawnCaller} (hl : sh.locked = true)
    (h : spawnStep sh k c p = some (sh', p')) (hn : ∀ e, p' ≠ .panicked e) :
    Balanced sh (.spawn p k) sh' p' (spawned (.spawn p k) c) := by
  intro g
  cases k
  all_goals
    cases p
    all_goals
      cases c
      all_goals
        simp only [spawnStep] at h
        repeat' split at h
        all_goals cases h
        all_goals first | exact absurd rfl (hn _) | cases g
        all_goals first
          | rfl
          | exact balance_unlock hl
          | exact balance_sub ‹_›

theorem prestartStep_balanced (h : prestartStep sh = some (sh', p')) :
    Balanced sh .prestart sh' p' [] := by
  intro g
  simp only [prestartStep, Shared.lock] at h
  split at h
  · cases h
  · simp only [Option.map_some] at h
    repeat' split at h
    all_goals cases h
    all_goals cases g
    all_goals first
      | rfl
      | exact balance_lock ‹_›
      | exact balance_visit ‹_›

theorem shutdownStep_balanced {p : ShutdownPc} (hl : (p == .notifyAll) = true → sh.locked = true)
    (h : shutdownStep sh p = some (sh', p')) : Balanced sh (.shutdown p) sh' p' [] := by
  intro g
  cases p
  all_goals simp only [shutdownStep, Shared.lock] at h
  all_goals repeat' split at h
  all_goals first | (simp only [Option.map_some] at h; (repeat' split at h) <;> cases h) | cases h
  all_goals cases g
  all_goals first
    | rfl
    | exact balance_lock ‹_›
    | exact balance_unlock (hl rfl)

theorem stopStep_balanced {p : StopPc} (hl : p.locks = true → sh.locked = true)
    (hq : p.queues = true → sh.queueLocked = true) (h : stopStep sh p = some (sh', p'))
    (hn : ∀ e, p' ≠ .panicked e) : Balanced sh (.stop p) sh' p' [] := by
  intro g
  cases p with
  | drain running jobs =>
    simp only [stopStep] at h
    split at h
    · cases h
      cases g <;> rfl
    · split at h
      · rename_i hs
        obtain rfl := takeQueued_eq_some hs
        cases h
        cases g <;> rfl
      · cases h
        cases g <;> rfl
  | next jobs report =>
    cases jobs <;> cases h
    all_goals cases g <;> rfl
  | _ =>
    simp only [stopStep, Shared.lock, Shared.lockQueue, Shared.withLock, Shared.lower] at h
    repeat' split at h
    all_goals first | (simp only [Option.map_some] at h; (repeat' split at h) <;> cases h) | cases h
    all_goals first | exact absurd rfl (hn _) | cases g
    all_goals first
      | rfl
      | exact balance_lock ‹_›
      | exact balance_unlock (hl rfl)
      | exact balance_unlock (hq rfl)
      | exact balance_sub ‹_›
      | exact balance_keep (PoolAccounting.inflightCount_of_sub ‹_›)

theorem ticketStep_balanced {p : TicketPc} (hq : p.queues = true → sh.queueLocked = true)
    (h : ticketStep sh j p = some (sh', p')) (hn : ∀ e, p' ≠ .panicked e) :
    Balanced sh (.ticket j p) sh' p' [] := by
  intro g
  cases p with
  | remove =>
    simp only [ticketStep] at h
    split at h
    · split at h
      · rename_i hs
        obtain rfl := takeQueued_eq_some hs
        cases h
        cases g <;> rfl
      · cases h
        cases g <;> rfl
    · cases h
      cases g <;> rfl
  | _ =>
    simp only [ticketStep, Shared.lockQueue, Shared.lower] at h
    repeat' split at h
    all_goals cases h
    all_goals first | exact absurd rfl (hn _) | cases g
    all_goals first
      | rfl
      | exact balance_lock ‹_›
      | exact balance_unlock (hq rfl)
      | exact balance_keep (PoolAccounting.inflightCount_of_sub ‹_›)

theorem cancelStep_balanced {p : CancelPc} {k : CancelCaller} (h : cancelStep sh k p = some (sh', p'))
    (hn : ∀ e, p' ≠ .panicked e) : Balanced sh (.cancel p k) sh' p' [] := by
  intro g
  cases k
  all_goals
    cases p
    all_goals
      simp only [cancelStep, Shared.lower] at h
      repeat' split at h
      all_goals cases h
      all_goals first | exact absurd rfl (hn _) | cases g
      all_goals first
        | rfl
        | exact balance_keep (PoolAccounting.inflightCount_of_sub ‹_›)

theorem joinStep_balanced {p : JoinPc} (hl : p.locks = true → sh.locked = true)
    (h : joinStep sh p = some (sh', p')) (hn : ∀ e, p' ≠ .panicked e) : Balanced sh (.join p) sh' p' [] := by
  intro g
  cases p
  all_goals simp only [joinStep, Shared.lock] at h
  all_goals repeat' split at h
  all_goals cases h
  all_goals first | exact absurd rfl (hn _) | cases g
  all_goals first
    | rfl
    | exact balance_lock ‹_›
    | exact balance_unlock (hl rfl)
    | exact balance_sub ‹_›

theorem observeStep_balanced {p : ObservePc} (hl : p.locks = true → sh.locked = true)
    (h : observeStep sh c p = some (sh', p')) : Balanced sh (.observe p) sh' p' [] := by
  intro g
  cases p with
  | lockState o =>
    obtain ⟨s, hs, h⟩ := Option.map_eq_some_iff.mp h
    obtain ⟨hf, rfl⟩ := sh.lock_eq_some hs
    cases o <;> cases h
    all_goals
      cases g with
      | monitor => exact balance_lock (by simp [hf])
      | _ => rfl
  | _ =>
    simp only [observeStep, Shared.lock] at h
    repeat' split at h
    all_goals cases h
    all_goals cases g
    all_goals first
      | rfl
      | exact balance_lock ‹_›
      | exact balance_unlock (hl rfl)

theorem setterStep_balanced {p : SetterPc} (h : setterStep sh p = some (sh', p')) :
    Balanced sh (.setter p) sh' p' [] := by
  intro g
  cases p
  all_goals simp only [setterStep, Shared.withLock] at h
  all_goals repeat' split at h
  all_goals cases h
  all_goals cases g <;> rfl

def Gauge.Same (g : Gauge) (p q : Pc) : Prop := g.weight p = g.weight q ∧ g.owed p = g.owed q

theorem TermCaller.refuted_same (k : TermCaller) (g : Gauge) : g.Same k.refuted (.term k) := by
  cases k with
  | observer o => cases o <;> cases g <;> exact ⟨rfl, rfl⟩
  | _ => cases g <;> exact ⟨rfl, rfl⟩

theorem TermCaller.confirmed_same (k : TermCaller) (g : Gauge) : g.Same k.confirmed (.term k) := by
  cases k with
  | observer o => cases o <;> cases g <;> exact ⟨rfl, rfl⟩
  | _ => cases g <;> exact ⟨rfl, rfl⟩

theorem TermCaller.published_same (k : TermCaller) (g : Gauge) : g.Same k.published (.publish k) := by
  cases k with
  | observer o => cases o <;> cases g <;> exact ⟨rfl, rfl⟩
  | _ => cases g <;> exact ⟨rfl, rfl⟩

theorem IdleCaller.decided_same (k : IdleCaller) (r : IdleRead) (b : Bool) (g : Gauge) :
    g.Same (k.decided b) (.idle r k) := by
  cases k with
  | term k =>
    have hk : g.Same (.term k) (.idle r (.term k)) := by cases g <;> exact ⟨rfl, rfl⟩
    cases b
    · exact ⟨(k.refuted_same g).1.trans hk.1, (k.refuted_same g).2.trans hk.2⟩
    · exact ⟨(k.confirmed_same g).1.trans hk.1, (k.confirmed_same g).2.trans hk.2⟩
  | _ => cases b <;> cases g <;> exact ⟨rfl, rfl⟩

theorem idleStep_same (sh : Shared) (r : IdleRead) (k : IdleCaller) (g : Gauge) :
    g.Same (idleStep sh r k) (.idle r k) := by
  unfold idleStep
  split
  · split
    · cases k <;> cases g <;> exact ⟨rfl, rfl⟩
    · exact k.decided_same r true g
  · exact k.decided_same r false g

theorem Gauge.Same.balance {g : Gauge} {p q : Pc} (h : g.Same q p) (hv : g.value sh' = g.value sh) :
    g.value sh' + g.owed q + g.weight p =
      g.value sh + g.owed p + g.weight q + total g.weight (([] : List Pc) : Multiset Pc) := by
  rw [hv, h.1, h.2]
  rfl

theorem step_balanced {p : Pc} (hl : p.locks = true → sh.locked = true)
    (hq : p.queues = true → sh.queueLocked = true) (h : step sh c p = some (sh', p'))
    (hn : ∀ e, p' ≠ .panicked e) : Balanced sh p sh' p' (spawned p c) := by
  cases p with
  | submit j p => exact submitStep_balanced hl hq h hn
  | spawn p k => exact spawnStep_balanced (hl rfl) h hn
  | prestart => exact prestartStep_balanced h
  | worker p => exact workerStep_balanced hl hq h hn
  | shutdown p => exact shutdownStep_balanced hl h
  | stop p => exact stopStep_balanced hl hq h hn
  | ticket j p => exact ticketStep_balanced hq h hn
  | cancel p k => exact cancelStep_balanced h hn
  | join p => exact joinStep_balanced hl h hn
  | observe p => exact observeStep_balanced hl h
  | setter p => exact setterStep_balanced h
  | prestartUnlock =>
    intro g
    cases h
    cases g with
    | monitor => exact balance_unlock (hl rfl)
    | _ => rfl
  | notifyLock k =>
    intro g
    obtain ⟨s, hs, h⟩ := Option.map_eq_some_iff.mp h
    obtain ⟨hf, rfl⟩ := sh.lock_eq_some hs
    cases h
    cases g with
    | monitor => exact balance_lock (by simp [hf])
    | _ => rfl
  | notifyAll k =>
    intro g
    cases h
    cases k
    all_goals
      cases g with
      | monitor => exact balance_unlock (hl rfl)
      | _ => rfl
  | term k =>
    intro g
    simp only [step] at h
    split at h
    · cases h
      cases g <;> rfl
    · cases h
      exact (k.refuted_same g).balance rfl
  | publish k =>
    intro g
    cases h
    refine (k.published_same g).balance ?_
    cases g <;> rfl
  | idle r k =>
    intro g
    cases h
    exact (idleStep_same sh r k g).balance rfl
  | prestarted _ => cases h
  | panicked _ => cases h

namespace Gauged
variable {p : Pc} {rest : Multiset Pc}

/-- The holder of the monitor excludes every other holder. -/
theorem exclusive (law : Gauged sh (p ::ₘ rest)) (hp : p.locks = true) : ∀ q ∈ rest, q.locks = false := by
  have h := law .monitor
  have ho : total Gauge.monitor.owed (p ::ₘ rest) = 0 := total_eq_zero_iff.mpr fun _ _ => rfl
  have hw : Gauge.monitor.weight p = 1 := by simp [Gauge.weight, hp]
  have hv : Gauge.monitor.value sh ≤ 1 := Bool.toNat_le _
  rw [ho, total_cons, hw] at h
  have hz : total Gauge.monitor.weight rest = 0 := by omega
  intro q hq
  have := total_eq_zero_iff.mp hz q hq
  simpa [Gauge.weight] using this

theorem owed_rest (law : Gauged sh (p ::ₘ rest)) (hp : p.locks = true) (g : Gauge) :
    total g.owed rest = 0 := by
  refine total_eq_zero_iff.mpr fun q hq => ?_
  have hl := law.exclusive hp q hq
  unfold Gauge.owed
  split
  · cases hl
  · rfl

/-- Only `live_worker_count` is ever behind its contributions. -/
theorem eq_total {ps : Multiset Pc} (law : Gauged sh ps) {g : Gauge} (hg : g ≠ .liveWorkerCount) :
    g.value sh = total g.weight ps := by
  have h := law g
  have ho : total g.owed ps = 0 := by
    refine total_eq_zero_iff.mpr fun q _ => ?_
    unfold Gauge.owed
    split
    · exact absurd rfl hg
    · rfl
  rwa [ho] at h

theorem le_value (law : Gauged sh (p ::ₘ rest)) {g : Gauge} (hg : g ≠ .liveWorkerCount) :
    g.weight p ≤ g.value sh := by
  rw [law.eq_total hg, total_cons]
  exact Nat.le_add_right _ _

theorem locked (law : Gauged sh (p ::ₘ rest)) (hp : p.locks = true) : sh.locked = true := by
  have h := law.le_value (g := .monitor) nofun
  cases hl : sh.locked with
  | true => rfl
  | false => simp [Gauge.weight, Gauge.value, hp, hl] at h

theorem queueLocked (law : Gauged sh (p ::ₘ rest)) (hp : p.queues = true) : sh.queueLocked = true := by
  have h := law.le_value (g := .queue) nofun
  cases hl : sh.queueLocked with
  | true => rfl
  | false => simp [Gauge.weight, Gauge.value, hp, hl] at h

theorem advance (law : Gauged sh (p ::ₘ rest)) {new : List Pc} (hb : Balanced sh p sh' p' new)
    (hnew : ∀ q ∈ new, ∀ g : Gauge, g.owed q = 0) : Gauged sh' (p' ::ₘ (↑new + rest)) := by
  intro g
  have h := law g
  have hb := hb g
  have ho : total g.owed (new : Multiset Pc) = 0 :=
    total_eq_zero_iff.mpr fun q hq => hnew q (Multiset.mem_coe.mp hq) g
  simp only [total_cons, total_add] at h ⊢
  omega

/-- Among the assertions only those of the task counters are left to the book. -/
theorem sound (law : Gauged sh (p ::ₘ rest)) {e : Panic} (h : step sh c p = some (sh', .panicked e)) :
    ∃ d, e = .counter d := by
  cases p with
  | submit j p =>
    cases p with
    | leave result =>
      simp only [step, submitStep] at h
      split at h
      · rename_i last _
        cases last <;> cases h
      · rename_i ha
        have hpos : 0 < sh.acct.admission.inflight := law.le_value (g := .inflight) (by rintro ⟨⟩)
        simp [PoolAccounting.leave, AdmissionGate.leave, hpos] at ha
    | _ =>
      simp only [step, submitStep, Shared.lock, Shared.lockQueue, Shared.withLock, Shared.lower] at h
      repeat' split at h
      all_goals cases h
      all_goals exact ⟨_, rfl⟩
  | spawn p k =>
    cases p with
    | rollback =>
      have hpos : 0 < sh.state.liveWorkers := law.le_value (g := .liveWorkers) (by rintro ⟨⟩)
      simp only [step, spawnStep, if_pos hpos] at h
      cases h
    | _ => cases k <;> cases c <;> cases h
  | worker p =>
    have ha := workerStep_arrives h
    cases e with
    | counter d => exact ⟨d, rfl⟩
    | idleWorkers =>
      obtain ⟨⟨retire, rfl⟩, hn⟩ := ha
      have hidle : 0 < sh.state.idleWorkers := law.le_value (g := .idleWorkers) (by rintro ⟨⟩)
      have hcount : 0 < sh.idleWorkerCount := law.le_value (g := .idleWorkerCount) (by rintro ⟨⟩)
      exact absurd ⟨hidle, hcount⟩ hn
    | liveWorkers =>
      rcases ha with ⟨rfl, hn⟩ | ⟨rfl, hn⟩
      · exact absurd (law.le_value (g := .liveWorkers) (by rintro ⟨⟩)) hn
      · have hg := law .liveWorkerCount
        rw [total_cons, total_cons, law.owed_rest rfl] at hg
        simp only [Gauge.owed, Gauge.weight, Gauge.value] at hg
        omega
    | exitingWorkers =>
      obtain ⟨rfl, hn⟩ := ha
      exact absurd (law.le_value (g := .exitingWorkers) (by rintro ⟨⟩)) hn
    | admission | submitWaiters | idleWaiters => cases ha
  | prestart =>
    obtain ⟨s, -, h⟩ := Option.map_eq_some_iff.mp h
    repeat' split at h
    all_goals cases h
  | shutdown p => cases p <;> simp [step, shutdownStep] at h
  | stop p =>
    have ha := stopStep_arrives h
    cases e with
    | counter d => exact ⟨d, rfl⟩
    | submitWaiters =>
      obtain ⟨rfl, hn⟩ := ha
      exact absurd (law.le_value (g := .submitWaiters) (by rintro ⟨⟩)) hn
    | _ => cases ha
  | ticket j p =>
    cases p
    all_goals simp only [step, ticketStep, Shared.lockQueue, Shared.lower] at h
    all_goals repeat' split at h
    all_goals cases h
    all_goals exact ⟨_, rfl⟩
  | cancel p k =>
    cases k
    all_goals
      cases p
      all_goals simp only [step, cancelStep, Shared.lower] at h
      all_goals repeat' split at h
      all_goals cases h
      all_goals exact ⟨_, rfl⟩
  | join p =>
    cases p with
    | subWaiter =>
      have hpos : 0 < sh.idleWaiterCount := law.le_value (g := .idleWaiters) (by rintro ⟨⟩)
      simp only [step, joinStep, if_pos hpos] at h
      cases h
    | _ => simp [step, joinStep] at h
  | observe p =>
    cases p
    all_goals simp only [step, observeStep, Shared.lock] at h
    all_goals repeat' split at h
    all_goals cases h
  | setter p =>
    cases p
    all_goals simp only [step, setterStep, Shared.withLock] at h
    all_goals repeat' split at h
    all_goals cases h
  | notifyLock k => simp [step] at h
  | notifyAll k => exact absurd (congrArg Prod.snd (Option.some.inj h)) (k.resume_sound e)
  | term k =>
    simp only [step] at h
    split at h
    · cases h
    · exact absurd (congrArg Prod.snd (Option.some.inj h)) (k.refuted_sound e)
  | publish k => exact absurd (congrArg Prod.snd (Option.some.inj h)) (k.published_sound e)
  | idle r k => exact absurd (congrArg Prod.snd (Option.some.inj h)) (idleStep_sound sh r k e)
  | prestartUnlock => cases h
  | prestarted _ => cases h
  | panicked _ => cases h

end Gauged

end ThreadPools.Dynamic
