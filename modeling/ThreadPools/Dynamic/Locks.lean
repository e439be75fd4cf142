import ThreadPools.Dynamic.Tickets
import ThreadPools.Interleaving.LockOrder

/-! # The locks of the dynamic pool

Every control point says which locks its actor holds and which one its next step
acquires, also when that step releases it again. The locks are ordered: the state
monitor before the queue before the entries.
-/
namespace ThreadPools.Dynamic
open Interleaving
open Move (call)

inductive PoolLock where
  | monitor | queue | entry (j : JobId)
  deriving DecidableEq

def PoolLock.rank : PoolLock → ℕ
  | .monitor => 0
  | .queue => 1
  | .entry _ => 2

def PoolLock.held (sh : Shared) : PoolLock → Bool
  | .monitor => sh.locked
  | .queue => sh.queueLocked
  | .entry j => (sh.jobs j).entryLocked

/-- The submitter of `j` while it turns its entry into `Cancelling`. -/
def Pc.entries (j : JobId) : Pc → Bool
  | .submit i .requestedWithdraw | .submit i .requestedCancelling | .submit i .requestedUnlock => i == j
  | _ => false

def Pc.holds (p : Pc) : PoolLock → Bool
  | .monitor => p.locks
  | .queue => p.queues
  | .entry j => p.entries j

def SubmitPc.wants (job : Job) (j : JobId) : SubmitPc → Option PoolLock
  | .lockState | .broadcast => some .monitor
  | .lockQueue => some .queue
  | .beginAccept | .setRejected => if job.ticketed then some (.entry j) else none
  | .decideEntry => if job.entry.isSome then some (.entry j) else none
  | _ => none

def WorkerPc.wants (queue : List JobId) : WorkerPc → Option PoolLock
  | .takeLock => some .queue
  | .takePop => queue.head?.map .entry
  | .lockState | .relock | .parked _ _ | .drainParked _ | .exitLock => some .monitor
  | _ => none

def StopPc.wants (queue : List JobId) : StopPc → Option PoolLock
  | .lockState | .parked _ | .finalNotify _ => some .monitor
  | .lockQueue _ => some .queue
  | .drain _ _ => queue.head?.map .entry
  | _ => none

def TicketPc.wants (queue : List JobId) (j : JobId) : TicketPc → Option PoolLock
  | .check _ | .waiting => some (.entry j)
  | .lockQueue => some .queue
  | .remove => if j ∈ queue then some (.entry j) else none
  | _ => none

def SetterPc.wants : SetterPc → Option PoolLock
  | .corePoolSize _ | .allowCoreThreadTimeout _ => some .monitor
  | .maximumPoolSize n | .keepAlive n => if n = 0 then none else some .monitor
  | _ => none

/-- The lock that the next step acquires; a parked waiter reacquires its own. -/
def Pc.wants (sh : Shared) : Pc → Option PoolLock
  | .submit j p => p.wants (sh.jobs j) j
  | .worker p => p.wants sh.globalQueue
  | .stop p => p.wants sh.globalQueue
  | .ticket j p => p.wants sh.globalQueue j
  | .setter p => p.wants
  | .cancel .done (.submitter j) => some (.entry j)
  | .prestart | .shutdown .lockState | .join .lockState | .join (.parked _) | .observe (.lockState _)
  | .observe (.parked _) | .notifyLock _ => some .monitor
  | _ => none

/-- The control points at which foreign code runs: the callbacks of a job, the hooks of
a worker and of its tasks, and the destructors of captures, also of a job that the
gate refuses. -/
def Pc.userCode : Pc → Bool
  | .submit _ .enter | .submit _ (.discard _) | .submit _ .accepting
  | .worker .start | .worker (.callRun _) | .worker (.running _) | .worker (.finishCompleted _)
  | .worker .stopHook | .cancel .running _ => true
  | _ => false

def Pc.finished : Pc → Bool
  | .submit _ (.returned _) | .prestarted _ | .worker .exited | .shutdown .returned | .stop (.returned _)
  | .ticket _ (.returned _) | .join .returned | .setter (.returned _) => true
  | .observe (.returned _) | .observe (.returnedLifecycle _) | .observe (.returnedStats _) => true
  | _ => false

/-- While its thread may be in another activation: foreign code can call the pool, and after
a call its thread makes the next one. -/
def Pc.inactive (p : Pc) : Bool := p.userCode || p.finished

variable {sh sh' : Shared} {p p' q : Pc} {ps rest : Multiset Pc} {c : Outcome} {j : JobId} {l l' : PoolLock}

theorem monitor_wants (hp : p.locks = true) (hw : p.wants sh = some l) : l ≠ .monitor := by
  rintro rfl
  cases p with
  | submit j q => cases q <;> first | exact absurd hp Bool.false_ne_true | cases hw
  | worker q => cases q <;> first | exact absurd hp Bool.false_ne_true | cases hw
  | stop q =>
    cases q with
    | drain running jobs =>
      obtain ⟨j, -, hj⟩ := Option.map_eq_some_iff.mp hw
      cases hj
    | _ => first | exact absurd hp Bool.false_ne_true | cases hw
  | shutdown q => cases q <;> first | exact absurd hp Bool.false_ne_true | cases hw
  | join q => cases q <;> first | exact absurd hp Bool.false_ne_true | cases hw
  | observe q => cases q <;> first | exact absurd hp Bool.false_ne_true | cases hw
  | idle r k => cases hw
  | _ => first | exact absurd hp Bool.false_ne_true | cases hw

theorem queue_wants (hp : p.queues = true) (hw : p.wants sh = some l) : ∃ j, l = .entry j := by
  cases p with
  | submit j q =>
    cases q with
    | decideEntry =>
      simp only [Pc.wants, SubmitPc.wants] at hw
      split at hw <;> cases hw
      exact ⟨j, rfl⟩
    | _ => first | exact absurd hp Bool.false_ne_true | cases hw
  | worker q =>
    cases q with
    | takePop =>
      obtain ⟨j, -, rfl⟩ := Option.map_eq_some_iff.mp hw
      exact ⟨j, rfl⟩
    | _ => first | exact absurd hp Bool.false_ne_true | cases hw
  | stop q =>
    cases q with
    | drain running jobs =>
      obtain ⟨j, -, rfl⟩ := Option.map_eq_some_iff.mp hw
      exact ⟨j, rfl⟩
    | _ => first | exact absurd hp Bool.false_ne_true | cases hw
  | ticket j q =>
    cases q with
    | remove =>
      simp only [Pc.wants, TicketPc.wants] at hw
      split at hw <;> cases hw
      exact ⟨j, rfl⟩
    | _ => first | exact absurd hp Bool.false_ne_true | cases hw
  | _ => exact absurd hp Bool.false_ne_true

theorem entry_queues (hp : p.entries j = true) : p.queues = true := by
  unfold Pc.entries at hp
  split at hp <;> first | rfl | cases hp

theorem entries_wants (hp : p.entries j = true) : p.wants sh = none := by
  unfold Pc.entries at hp
  split at hp <;> first | rfl | cases hp

/-- A lock is wanted only above those that are held. -/
theorem wants_above (hw : p.wants sh = some l) (hh : p.holds l' = true) : l'.rank < l.rank := by
  cases l' with
  | monitor =>
    have hl := monitor_wants hh hw
    cases l with
    | monitor => exact absurd rfl hl
    | queue => exact Nat.one_pos
    | entry j => exact Nat.two_pos
  | queue =>
    obtain ⟨j, rfl⟩ := queue_wants hh hw
    exact Nat.lt_succ_self 1
  | entry j =>
    rw [entries_wants hh] at hw
    cases hw

theorem userCode_wants (hp : p.userCode = true) : p.wants sh = none := by
  unfold Pc.userCode at hp
  split at hp <;> first | rfl | cases hp

theorem userCode_holds (hp : p.userCode = true) (l : PoolLock) : p.holds l = false := by
  unfold Pc.userCode at hp
  split at hp <;> first | (cases l <;> rfl) | cases hp

theorem inactive_wants (hp : p.inactive = true) : p.wants sh = none := by
  rcases Bool.or_eq_true_iff.mp hp with hp | hp
  · exact userCode_wants hp
  · unfold Pc.finished at hp
    split at hp <;> first | rfl | cases hp

theorem inactive_holds (hp : p.inactive = true) (l : PoolLock) : p.holds l = false := by
  rcases Bool.or_eq_true_iff.mp hp with hp | hp
  · exact userCode_holds hp l
  · unfold Pc.finished at hp
    split at hp <;> first | (cases l <;> rfl) | cases hp

/-- What a step does to the two mutexes: it sets only the flag of the lock that it wants,
and it gets past that lock only if nobody holds it. -/
structure Acquires (sh : Shared) (p : Pc) (sh' : Shared) (p' : Pc) : Prop where
  monitor : sh'.locked = true → sh.locked = true ∨ p.wants sh = some .monitor
  queue : sh'.queueLocked = true → sh.queueLocked = true ∨ p.wants sh = some .queue
  monitorFree : p.wants sh = some .monitor → sh.locked = false ∨ p'.wants sh' = some .monitor
  queueFree : p.wants sh = some .queue → sh.queueLocked = false

namespace Acquires

theorem of_none (hw : p.wants sh = none) (hl : sh'.locked = sh.locked ∨ sh'.locked = false)
    (hq : sh'.queueLocked = sh.queueLocked ∨ sh'.queueLocked = false) : Acquires sh p sh' p' := by
  refine ⟨fun h => Or.inl ?_, fun h => Or.inl ?_, fun h => ?_, fun h => ?_⟩
  · rcases hl with hl | hl
    · rw [← hl, h]
    · rw [h] at hl
      cases hl
  · rcases hq with hq | hq
    · rw [← hq, h]
    · rw [h] at hq
      cases hq
  · rw [hw] at h
    cases h
  · rw [hw] at h
    cases h

theorem of_same (hw : p.wants sh = none) (hl : sh'.locked = sh.locked)
    (hq : sh'.queueLocked = sh.queueLocked) : Acquires sh p sh' p' := of_none hw (Or.inl hl) (Or.inl hq)

theorem of_entry (hw : p.wants sh = some (.entry j)) (hl : sh'.locked = sh.locked)
    (hq : sh'.queueLocked = sh.queueLocked) : Acquires sh p sh' p' := by
  refine ⟨fun h => Or.inl (hl ▸ h), fun h => Or.inl (hq ▸ h), fun h => ?_, fun h => ?_⟩
  all_goals
    rw [hw] at h
    cases h

theorem of_monitor (hw : p.wants sh = some .monitor) (hf : sh.locked = false)
    (hq : sh'.queueLocked = sh.queueLocked) : Acquires sh p sh' p' := by
  refine ⟨fun _ => Or.inr hw, fun h => Or.inl (hq ▸ h), fun _ => Or.inl hf, fun h => ?_⟩
  rw [hw] at h
  cases h

theorem of_queue (hw : p.wants sh = some .queue) (hf : sh.queueLocked = false)
    (hl : sh'.locked = sh.locked) : Acquires sh p sh' p' := by
  refine ⟨fun h => Or.inl (hl ▸ h), fun _ => Or.inr hw, fun h => ?_, fun _ => hf⟩
  rw [hw] at h
  cases h

end Acquires

open Acquires

theorem submitStep_acquires {p : SubmitPc} (h : submitStep sh j c p = some (sh', p')) :
    Acquires sh (.submit j p) sh' p' := by
  cases p with
  | decideEntry =>
    simp only [submitStep] at h
    cases he : (sh.jobs j).entry with
    | none =>
      simp only [he] at h
      cases h
      exact of_same (by simp [Pc.wants, SubmitPc.wants, he]) rfl rfl
    | some e =>
      have hw : (Pc.submit j .decideEntry).wants sh = some (.entry j) := by
        simp [Pc.wants, SubmitPc.wants, he]
      split at h <;> cases h
      all_goals exact of_entry hw rfl rfl
  | _ =>
    simp only [submitStep, Shared.lock, Shared.lockQueue, Shared.withLock, Shared.lower] at h
    repeat' split at h
    all_goals cases h
    all_goals first
      | exact of_same rfl rfl rfl
      | exact of_none rfl (Or.inr rfl) (Or.inl rfl)
      | exact of_none rfl (Or.inl rfl) (Or.inr rfl)
      | exact of_monitor rfl (Bool.eq_false_iff.mpr ‹_›) rfl
      | exact of_queue rfl (Bool.eq_false_iff.mpr ‹_›) rfl
      | exact of_entry (if_pos ‹_›) rfl rfl
      | exact of_same (if_neg ‹_›) rfl rfl

theorem workerStep_acquires {p : WorkerPc} (h : workerStep sh c p = some (sh', p')) :
    Acquires sh (.worker p) sh' p' := by
  cases p with
  | takePop =>
    simp only [workerStep] at h
    split at h
    · rename_i hq
      cases h
      exact of_same (by simp [Pc.wants, WorkerPc.wants, hq]) rfl rfl
    · rename_i j q hq
      have hw : (Pc.worker .takePop).wants sh = some (.entry j) := by simp [Pc.wants, WorkerPc.wants, hq]
      split at h
      · rename_i s hs
        obtain rfl := takeQueued_eq_some hs
        cases h
        exact of_entry hw rfl rfl
      · cases h
        exact of_entry hw rfl rfl
  | _ =>
    simp only [workerStep, Shared.lock, Shared.lockQueue, Shared.lower] at h
    repeat' split at h
    all_goals first | (simp only [Option.map_some] at h; (repeat' split at h) <;> cases h) | cases h
    all_goals first
      | exact of_same rfl rfl rfl
      | exact of_none rfl (Or.inr rfl) (Or.inl rfl)
      | exact of_none rfl (Or.inl rfl) (Or.inr rfl)
      | exact of_monitor rfl (Bool.eq_false_iff.mpr ‹_›) rfl
      | exact of_queue rfl (Bool.eq_false_iff.mpr ‹_›) rfl

theorem stopStep_acquires {p : StopPc} (h : stopStep sh p = some (sh', p')) : Acquires sh (.stop p) sh' p' := by
  cases p with
  | drain running jobs =>
    simp only [stopStep] at h
    split at h
    · rename_i hq
      cases h
      exact of_same (by simp [Pc.wants, StopPc.wants, hq]) rfl rfl
    · rename_i j q hq
      have hw : (Pc.stop (.drain running jobs)).wants sh = some (.entry j) := by
        simp [Pc.wants, StopPc.wants, hq]
      split at h
      · rename_i s hs
        obtain rfl := takeQueued_eq_some hs
        cases h
        exact of_entry hw rfl rfl
      · cases h
        exact of_entry hw rfl rfl
  | lockState =>
    obtain ⟨s, hs, h⟩ := Option.map_eq_some_iff.mp h
    obtain ⟨hf, rfl⟩ := sh.lock_eq_some hs
    cases hl : sh.state.lifecycle <;> simp only [hl] at h <;> cases h
    all_goals exact of_monitor rfl hf rfl
  | next jobs report =>
    cases jobs <;> cases h
    all_goals exact of_same rfl rfl rfl
  | _ =>
    simp only [stopStep, Shared.lock, Shared.lockQueue, Shared.withLock, Shared.lower] at h
    repeat' split at h
    all_goals cases h
    all_goals first
      | exact of_same rfl rfl rfl
      | exact of_none rfl (Or.inr rfl) (Or.inl rfl)
      | exact of_none rfl (Or.inl rfl) (Or.inr rfl)
      | exact of_monitor rfl (Bool.eq_false_iff.mpr ‹_›) rfl
      | exact of_queue rfl (Bool.eq_false_iff.mpr ‹_›) rfl

theorem ticketStep_acquires {p : TicketPc} (h : ticketStep sh j p = some (sh', p')) :
    Acquires sh (.ticket j p) sh' p' := by
  cases p with
  | remove =>
    simp only [ticketStep] at h
    split at h
    · split at h
      · rename_i s hs
        obtain rfl := takeQueued_eq_some hs
        cases h
        exact of_entry (if_pos ‹_›) rfl rfl
      · cases h
        exact of_entry (if_pos ‹_›) rfl rfl
    · cases h
      exact of_same (if_neg ‹_›) rfl rfl
  | _ =>
    simp only [ticketStep, Shared.lockQueue, Shared.lower] at h
    repeat' split at h
    all_goals cases h
    all_goals first
      | exact of_same rfl rfl rfl
      | exact of_none rfl (Or.inl rfl) (Or.inr rfl)
      | exact of_queue rfl (Bool.eq_false_iff.mpr ‹_›) rfl
      | exact of_entry rfl rfl rfl

theorem setterStep_acquires {p : SetterPc} (h : setterStep sh p = some (sh', p')) :
    Acquires sh (.setter p) sh' p' := by
  cases p
  all_goals simp only [setterStep, Shared.withLock] at h
  all_goals repeat' split at h
  all_goals cases h
  all_goals first
    | exact of_same rfl rfl rfl
    | exact of_same (if_pos ‹_›) rfl rfl
    | exact of_monitor rfl (Bool.eq_false_iff.mpr ‹_›) rfl
    | exact of_monitor (if_neg ‹_›) (Bool.eq_false_iff.mpr ‹_›) rfl

theorem observeStep_acquires {p : ObservePc} (h : observeStep sh c p = some (sh', p')) :
    Acquires sh (.observe p) sh' p' := by
  cases p with
  | unlock o terminated =>
    cases o <;> cases h
    all_goals exact of_none rfl (Or.inr rfl) (Or.inl rfl)
  | parked epoch =>
    cases c with
    | ok =>
      obtain ⟨s, hs, h⟩ := Option.map_eq_some_iff.mp h
      obtain ⟨hf, rfl⟩ := sh.lock_eq_some hs
      cases h
      exact of_monitor rfl hf rfl
    | err =>
      -- An expired wait has still to take the monitor for its last look.
      cases h
      exact ⟨Or.inl, Or.inl, fun _ => Or.inr rfl, nofun⟩
  | _ =>
    simp only [observeStep, Shared.lock] at h
    repeat' split at h
    all_goals cases h
    all_goals first
      | exact of_same rfl rfl rfl
      | exact of_none rfl (Or.inr rfl) (Or.inl rfl)
      | exact of_monitor rfl (Bool.eq_false_iff.mpr ‹_›) rfl

theorem step_acquires (h : step sh c p = some (sh', p')) : Acquires sh p sh' p' := by
  cases p with
  | submit j p => exact submitStep_acquires h
  | spawn p k =>
    cases p <;> cases k <;> simp only [step, spawnStep] at h
    all_goals repeat' split at h
    all_goals cases h
    all_goals first | exact of_same rfl rfl rfl | exact of_none rfl (Or.inr rfl) (Or.inl rfl)
  | prestart =>
    obtain ⟨s, hs, h⟩ := Option.map_eq_some_iff.mp h
    obtain ⟨hf, rfl⟩ := sh.lock_eq_some hs
    repeat' split at h
    all_goals cases h
    all_goals exact of_monitor rfl hf rfl
  | worker p => exact workerStep_acquires h
  | shutdown p =>
    cases p with
    | lockState =>
      obtain ⟨s, hs, h⟩ := Option.map_eq_some_iff.mp h
      obtain ⟨hf, rfl⟩ := sh.lock_eq_some hs
      split at h <;> cases h
      all_goals exact of_monitor rfl hf rfl
    | returned => cases h
    | _ =>
      cases h
      first | exact of_same rfl rfl rfl | exact of_none rfl (Or.inr rfl) (Or.inl rfl)
  | stop p => exact stopStep_acquires h
  | ticket j p => exact ticketStep_acquires h
  | cancel p k =>
    cases p with
    | done =>
      cases k <;> cases h
      · exact of_entry rfl rfl rfl
      · exact of_same rfl rfl rfl
      · exact of_same rfl rfl rfl
    | _ =>
      simp only [step, cancelStep, Shared.lower] at h
      repeat' split at h
      all_goals cases h
      all_goals exact of_same rfl rfl rfl
  | join p =>
    cases p
    all_goals simp only [step, joinStep, Shared.lock] at h
    all_goals repeat' split at h
    all_goals cases h
    all_goals first
      | exact of_same rfl rfl rfl
      | exact of_none rfl (Or.inr rfl) (Or.inl rfl)
      | exact of_monitor rfl (Bool.eq_false_iff.mpr ‹_›) rfl
  | observe p => exact observeStep_acquires h
  | setter p => exact setterStep_acquires h
  | notifyLock k =>
    obtain ⟨s, hs, h⟩ := Option.map_eq_some_iff.mp h
    obtain ⟨hf, rfl⟩ := sh.lock_eq_some hs
    cases h
    exact of_monitor rfl hf rfl
  | notifyAll k | prestartUnlock =>
    cases h
    exact of_none rfl (Or.inr rfl) (Or.inl rfl)
  | term k | publish k | idle r k =>
    cases h
    exact of_same rfl rfl rfl
  | prestarted _ | panicked _ => cases h

theorem foreign_locked : Foreign fun p : Pc => if p.directStage = .locked then some () else none := by
  refine ⟨fun j e => ?_, fun j result => ?_, fun _ => rfl, fun _ => rfl, rfl, fun _ _ => rfl, fun _ => rfl,
    fun _ _ => rfl, fun _ => rfl⟩
  · cases e <;> rfl
  · cases result with
    | none => rfl
    | some e => cases e <;> rfl

/-- Only the submitter of a job holds the lock of its entry. -/
theorem entries_iff : p.entries j = true ↔ p.call = some (.submit j) ∧ p.stage = .locked := by
  constructor
  · intro hp
    unfold Pc.entries at hp
    split at hp
    · obtain rfl := beq_iff_eq.mp hp
      exact ⟨rfl, rfl⟩
    · obtain rfl := beq_iff_eq.mp hp
      exact ⟨rfl, rfl⟩
    · obtain rfl := beq_iff_eq.mp hp
      exact ⟨rfl, rfl⟩
    · cases hp
  · rintro ⟨hc, hs⟩
    cases hp : p.inShared with
    | true =>
      have hn := foreign_locked.home hp
      rw [if_pos (show p.home.directStage = .locked from hs)] at hn
      cases hn
    | false =>
      cases p with
      | submit i q =>
        obtain rfl : i = j := by simpa [Pc.call, Pc.home, Pc.directCall] using hc
        cases q with
        | requestedWithdraw | requestedCancelling | requestedUnlock => exact beq_self_eq_true i
        | discard e => cases e <;> cases hs
        | leave result | departGate result | departWaiters result | returned result =>
          cases result with
          | none => cases hs
          | some e => cases e <;> cases hs
        | _ => cases hs
      | notifyLock _ | notifyAll _ | term _ | publish _ | idle _ _ => cases hp
      | _ => cases hs

/-- The flags of the two mutexes count their holders. -/
theorem holders (law : Gauged sh ps) (hl : ∀ j, l ≠ .entry j) :
    total (fun p => (p.holds l).toNat) ps = (l.held sh).toNat := by
  cases l with
  | monitor =>
    have ho : total Gauge.monitor.owed ps = 0 := total_eq_zero_iff.mpr fun _ _ => rfl
    exact (law .monitor).symm.trans (by rw [ho]; rfl)
  | queue =>
    have ho : total Gauge.queue.owed ps = 0 := total_eq_zero_iff.mpr fun _ _ => rfl
    exact (law .queue).symm.trans (by rw [ho]; rfl)
  | entry j => exact absurd rfl (hl j)

theorem exclusive (law : Gauged sh ps) (l : PoolLock) : total (fun p => (p.holds l).toNat) ps ≤ 1 := by
  cases l with
  | monitor => exact (holders law (l := .monitor) nofun).trans_le (Bool.toNat_le _)
  | queue => exact (holders law (l := .queue) nofun).trans_le (Bool.toNat_le _)
  | entry j =>
    refine le_trans (total_le_total fun p _ => ?_) ((holders law (l := .queue) nofun).trans_le (Bool.toNat_le _))
    cases he : p.entries j with
    | false => simp [Pc.holds, he]
    | true => simp [Pc.holds, he, entry_queues he]

theorem excluded (law : Gauged sh (p ::ₘ rest)) (hp : p.holds l = true) (hq : q ∈ rest) : q.holds l = false := by
  have he := exclusive law l
  have hle := le_total (f := fun p => (p.holds l).toNat) hq
  rw [total_cons, hp] at he
  cases h : q.holds l with
  | false => rfl
  | true =>
    simp only [h, Bool.toNat_true] at hle he
    omega

structure Governed (sh : Shared) (ps : Multiset Pc) : Prop where
  attended : Attended sh ps
  staged : ∀ j, Staged j sh ps

theorem Staged.entryLocked_iff (st : Staged j sh ps) (hs : total (Pc.submits j) ps = (sh.offered j).toNat) :
    (sh.jobs j).entryLocked = true ↔ ∃ p ∈ ps, p.entries j = true := by
  constructor
  · intro hl
    have ho : sh.offered j = true := by
      by_contra hn
      have hf := (st.unoffered (Bool.eq_false_iff.mpr hn)).2
      rw [hl] at hf
      cases hf
    rw [ho, Bool.toNat_true] at hs
    obtain ⟨p, hp, hpos⟩ := total_pos_iff.mp (hs ▸ Nat.one_pos)
    have hc : p.call = some (.submit j) := by
      by_contra hc
      simp [Pc.submits, hc] at hpos
    have hf := (st.fits p hp hc).2
    rw [hl] at hf
    exact ⟨p, hp, entries_iff.mpr ⟨hc, of_decide_eq_true hf.symm⟩⟩
  · rintro ⟨p, hp, he⟩
    obtain ⟨hc, hs⟩ := entries_iff.mp he
    rw [(st.fits p hp hc).2, hs]
    rfl

/-- A flag is set exactly while some actor holds the lock. -/
theorem Governed.owned (g : Governed sh ps) (l : PoolLock) :
    l.held sh = true ↔ ∃ p ∈ ps, p.holds l = true := by
  by_cases hl : ∃ j, l = .entry j
  · obtain ⟨j, rfl⟩ := hl
    exact (g.staged j).entryLocked_iff (g.attended.submitters j)
  · refine Iff.trans ?_ total_toNat_pos
    rw [holders g.attended.consistent.gauged fun j hj => hl ⟨j, hj⟩]
    cases l.held sh <;> simp

/-- Whoever wants the lock of an entry holds the queue, submits the job or cancels it. -/
theorem entry_wants (hw : p.wants sh = some (.entry j)) : p.queues = true ∨ p.call = some (.submit j) ∨
    (∃ caller, p = .ticket j (.check caller)) ∨ p = .ticket j .waiting := by
  cases p with
  | submit i q =>
    cases q with
    | beginAccept | setRejected =>
      simp only [Pc.wants, SubmitPc.wants] at hw
      split at hw <;> cases hw
      exact Or.inr (Or.inl rfl)
    | decideEntry => exact Or.inl rfl
    | _ => cases hw
  | worker q =>
    cases q with
    | takePop => exact Or.inl rfl
    | _ => cases hw
  | stop q =>
    cases q with
    | drain running jobs => exact Or.inl rfl
    | _ => cases hw
  | ticket i q =>
    cases q with
    | check caller =>
      cases hw
      exact Or.inr (Or.inr (Or.inl ⟨caller, rfl⟩))
    | waiting =>
      cases hw
      exact Or.inr (Or.inr (Or.inr rfl))
    | remove => exact Or.inl rfl
    | _ => cases hw
  | setter q =>
    cases q with
    | maximumPoolSize n | keepAlive n =>
      simp only [Pc.wants, SetterPc.wants] at hw
      split at hw <;> cases hw
    | _ => cases hw
  | cancel q k =>
    cases q with
    | done =>
      cases k with
      | submitter i =>
        cases hw
        exact Or.inr (Or.inl rfl)
      | _ => cases hw
    | _ => cases hw
  | shutdown q => cases q <;> cases hw
  | join q => cases q <;> cases hw
  | observe q => cases q <;> cases hw
  | _ => cases hw

namespace Governed

/-- An actor that wants a lock that is held does not get past it. -/
theorem blocked (g : Governed sh (p ::ₘ rest)) (hw : p.wants sh = some l) (hl : l.held sh = true)
    (h : step sh c p = some (sh', p')) : p'.wants sh' = some l := by
  have hacq := step_acquires h
  cases l with
  | monitor =>
    rcases hacq.monitorFree hw with hf | hs
    · rw [PoolLock.held, hf] at hl
      cases hl
    · exact hs
  | queue =>
    rw [PoolLock.held, hacq.queueFree hw] at hl
    cases hl
  | entry j =>
    obtain ⟨q, hq, hqe⟩ := (g.owned (.entry j)).mp hl
    have hne : q ∈ rest := by
      rcases Multiset.mem_cons.mp hq with rfl | hq
      · rw [entries_wants hqe] at hw
        cases hw
      · exact hq
    rcases entry_wants hw with hqu | hc | ⟨caller, rfl⟩ | rfl
    · have hex := excluded g.attended.consistent.gauged (l := .queue) hqu hne
      rw [Pc.holds, entry_queues hqe] at hex
      cases hex
    · exact absurd hc (g.attended.other hne (entries_iff.mp hqe).1)
    · simp only [step, ticketStep, if_pos (show (sh.jobs j).entryLocked = true from hl)] at h
      cases h
    · simp only [step, ticketStep, if_pos (show (sh.jobs j).entryLocked = true from hl)] at h
      cases h

/-- A lock that a step leaves its actor with was held before or is the one it wanted. -/
theorem acquired (g : Governed sh (p ::ₘ rest)) (h : step sh c p = some (sh', p'))
    (hp : p'.holds l = true) : p.holds l = true ∨ p.wants sh = some l ∧ l.held sh = false := by
  have hacq := step_acquires h
  have inv' := g.attended.consistent.step_preserved ⟨False.elim, False.elim⟩ h
  -- Another holder would still be there after the step.
  have hold : l.held sh = true → p.holds l = true := by
    intro hl
    obtain ⟨q, hq, hql⟩ := (g.owned l).mp hl
    rcases Multiset.mem_cons.mp hq with rfl | hq
    · exact hql
    · have hex := excluded inv'.gauged hp (Multiset.mem_add.mpr (Or.inr hq))
      rw [hql] at hex
      cases hex
  cases hl : l.held sh with
  | true => exact Or.inl (hold hl)
  | false =>
    refine Or.inr ⟨?_, rfl⟩
    cases l with
    | monitor => exact (hacq.monitor (inv'.gauged.locked hp)).resolve_left (Bool.eq_false_iff.mp hl)
    | queue => exact (hacq.queue (inv'.gauged.queueLocked hp)).resolve_left (Bool.eq_false_iff.mp hl)
    | entry j =>
      obtain ⟨hc, hs⟩ := entries_iff.mp hp
      have hf := (((g.staged j).step g.attended h).fits p' (Multiset.mem_cons_self p' _) hc).2
      rw [hs] at hf
      rcases (step_work h).entryLocked j with he | rfl | rfl
      · have hl' : (sh.jobs j).entryLocked = false := hl
        rw [he, hl'] at hf
        cases hf
      · cases he : (sh.jobs j).entry with
        | none =>
          simp only [step, submitStep, he] at h
          cases h
          cases hp
        | some e => simp [Pc.wants, SubmitPc.wants, he]
      · cases h
        cases hp

end Governed

def Pc.callback : Pc → Bool
  | .submit _ .accepting | .worker (.running _) | .cancel .running _ => true
  | _ => false

theorem direct_callback {e : JobId × Phase} (he : e ∈ p.direct 0) (hc : e.2.inCallback = true) :
    p.callback = true := by
  cases p with
  | submit i q =>
    cases q with
    | accepting => rfl
    | leave result | departGate result | departWaiters result | returned result =>
      cases result with
      | none => exact absurd he (Multiset.notMem_zero e)
      | some error =>
        obtain rfl := Multiset.mem_singleton.mp he
        cases hc
    | _ => first
      | exact absurd he (Multiset.notMem_zero e)
      | (obtain rfl := Multiset.mem_singleton.mp he
         cases hc)
  | spawn q k =>
    cases k with
    | submit i =>
      obtain rfl := Multiset.mem_singleton.mp he
      cases hc
    | prestart => exact absurd he (Multiset.notMem_zero e)
  | worker q =>
    cases q with
    | running i => rfl
    | _ => first
      | exact absurd he (Multiset.notMem_zero e)
      | (obtain rfl := Multiset.mem_singleton.mp he
         cases hc)
  | stop q =>
    cases q with
    | drain _ jobs | unlockQueue _ jobs | notifyAll jobs _ | next jobs _ =>
      rw [Book.entered_phase he] at hc
      cases hc
    | drainWithdraw _ jobs i | drainCancelling _ jobs i =>
      rcases Multiset.mem_cons.mp he with rfl | he
      · cases hc
      · rw [Book.entered_phase he] at hc
        cases hc
    | _ => exact absurd he (Multiset.notMem_zero e)
  | ticket i q =>
    cases q <;> first
      | exact absurd he (Multiset.notMem_zero e)
      | (obtain rfl := Multiset.mem_singleton.mp he
         cases hc)
  | cancel q k =>
    rcases Multiset.mem_cons.mp he with rfl | he
    · cases q with
      | running => rfl
      | _ => cases hc
    · rw [Book.entered_phase he] at hc
      cases hc
  | _ => exact absurd he (Multiset.notMem_zero e)

/-- No shared function returns into a callback. -/
theorem home_callback (h : p.home.callback = true) : p.callback = true := by
  cases p with
  | notifyLock k | notifyAll k => cases k <;> cases h
  | term k | publish k =>
    cases k with
    | notify k => cases k <;> cases h
    | observer o => cases o <;> cases h
    | _ => cases h
  | idle r k =>
    cases k with
    | term k =>
      cases k with
      | notify k => cases k <;> cases h
      | observer o => cases o <;> cases h
      | _ => cases h
    | _ => cases h
  | _ => exact h

/-- A callback that has begun and not ended is run by an actor in foreign code. -/
theorem Governed.callback (g : Governed sh ps) {e : JobEvent} (he : (sh.history j).getLast? = some e)
    (hb : e = .acceptBegin ∨ e = .runBegin ∨ e = .cancelBegin) :
    ∃ p ∈ ps, ∃ ph : Phase, (j, ph) ∈ p.holdings ∧ p.callback = true := by
  have law := g.attended.consistent.recorded.law
  obtain ⟨ph, hm⟩ : ∃ ph, (j, ph) ∈ stored sh + ps.bind Pc.holdings := by
    refine law.exists_entry ?_
    by_contra ho
    rw [law.untouched j (Bool.eq_false_iff.mpr ho)] at he
    cases he
  rw [law.traced _ hm] at he
  have hc : ph.inCallback = true := by
    cases ph with
    | rejected error =>
      cases error with
      | rejected error => simp [Phase.history] at he
      | acceptancePanicked =>
        simp [Phase.history] at he
        simp [← he] at hb
    | accepting | running | cancelling => rfl
    | _ => simp [Phase.history] at he <;> simp [← he] at hb
  rcases Multiset.mem_add.mp hm with hm | hm
  · rw [Book.stored_idle hm] at hc
    cases hc
  · obtain ⟨p, hp, hph⟩ := Multiset.mem_bind.mp hm
    exact ⟨p, hp, ph, hph, home_callback (direct_callback hph hc)⟩

structure LockDiscipline (sh : Shared) (ps : Multiset Pc) : Prop where
  /-- The flags tell the holders, and there is at most one of each lock. -/
  owned : ∀ l : PoolLock, l.held sh = true ↔ ∃ p ∈ ps, p.holds l = true
  exclusive : ∀ l, total (fun p => (p.holds l).toNat) ps ≤ 1
  /-- A lock is acquired only above those that are held, and only when it is free. -/
  ordered : ∀ p ∈ ps, ∀ l l', p.wants sh = some l → p.holds l' = true → l'.rank < l.rank
  acquired : ∀ p ∈ ps, ∀ c sh' p' l, step sh c p = some (sh', p') → p'.holds l = true →
    p.holds l = true ∨ p.wants sh = some l ∧ l.held sh = false
  blocked : ∀ p ∈ ps, ∀ c sh' p' l, p.wants sh = some l → l.held sh = true →
    step sh c p = some (sh', p') → p'.wants sh' = some l
  /-- Foreign code runs without any of the locks, and no callback runs elsewhere. -/
  userCode : ∀ p ∈ ps, p.userCode = true → ∀ l, p.holds l = false
  callbacks : ∀ j e, (sh.history j).getLast? = some e → e = .acceptBegin ∨ e = .runBegin ∨ e = .cancelBegin →
    ∃ p ∈ ps, ∃ ph : Phase, (j, ph) ∈ p.holdings ∧ p.userCode = true

theorem Governed.discipline (g : Governed sh ps) : LockDiscipline sh ps where
  owned := g.owned
  exclusive := exclusive g.attended.consistent.gauged
  ordered := fun _ _ _ _ => wants_above
  acquired := by
    intro p hp c sh' p' l h hl
    obtain ⟨rest, rfl⟩ := Multiset.exists_cons_of_mem hp
    exact g.acquired h hl
  blocked := by
    intro p hp c sh' p' l hw hl h
    obtain ⟨rest, rfl⟩ := Multiset.exists_cons_of_mem hp
    exact g.blocked hw hl h
  userCode := fun _ _ hp => userCode_holds hp
  callbacks := by
    intro j e he hb
    obtain ⟨p, hp, ph, hph, hc⟩ := g.callback he hb
    refine ⟨p, hp, ph, hph, ?_⟩
    unfold Pc.callback at hc
    split at hc <;> first | rfl | cases hc

section
variable {config : ThreadPoolConfig} {tickets : JobId → Bool} {t : State Shared Pc}

/-- In every reachable state the locks are held and acquired in their order and never
by foreign code, so that threads whose other calls have returned or are suspended in
foreign code do not wait for each other in a circle. -/
theorem locks_ordered_and_acyclic (h : machine.Run Machine.free (init config tickets) t) :
    LockDiscipline t.shared t.actors ∧
      ∀ (T : Type) (thread : ℕ → T), Nested (fun p : Pc => p.inactive = true) thread t.actors →
        ∀ a, ¬ Relation.TransGen (WaitsFor (Through thread t.actors fun p l => p.wants t.shared = some l)
          (Through thread t.actors fun p l => p.holds l = true)) a a := by
  refine ⟨Governed.discipline ⟨.of_run h, fun j => (Ticketed.of_run h j).toStaged⟩, fun T thread hn => ?_⟩
  have hasc : Ascending PoolLock.rank (Through thread t.actors fun p l => p.wants t.shared = some l)
      (Through thread t.actors fun p l => p.holds l = true) := by
    refine hn.ascending ?_ ?_ ?_
    · intro p _ hp l hw
      rw [inactive_wants hp] at hw
      cases hw
    · intro p _ hp l hh
      rw [inactive_holds hp l] at hh
      cases hh
    · exact fun p _ l l' => wants_above
  exact hasc.acyclic

end

/-- An acceptance callback asks for `stats` of its pool while another thread, which has set
the core size before, starts a worker: the first thread waits for the second one. -/
theorem locks_ordered_and_acyclic_reentrant : ∃ t, machine.Run Machine.free
    (init ⟨2, 2, none, 1, false, by decide, by decide, nofun, by decide⟩ fun _ => false) t ∧
    t.actors = [.setter (.returned true), .submit 0 .accepting, .worker .start,
      .observe (.lockState (.stats ⟨1, 0, 0, 0, 0, 0, 0⟩)), .spawn .spawn .prestart] ∧
    LockDiscipline t.shared t.actors ∧
    ∀ a, ¬ Relation.TransGen
      (WaitsFor (Through (fun i => min i (4 - i)) t.actors fun p l => p.wants t.shared = some l)
        (Through (fun i => min i (4 - i)) t.actors fun p l => p.holds l = true)) a a := by
  have hexec : (machine.exec Machine.free
      (init ⟨2, 2, none, 1, false, by decide, by decide, nofun, by decide⟩ fun _ => false)
      (call (Op.setCorePoolSize 2) :: turns 0 2 Outcome.ok ++ call (Op.submit 0 0) :: turns 1 9 Outcome.ok ++
        call Op.stats :: turns 3 7 Outcome.ok ++ call Op.prestartCoreThread :: turns 4 1 Outcome.ok)).map
      State.actors = some [.setter (.returned true), .submit 0 .accepting, .worker .start,
        .observe (.lockState (.stats ⟨1, 0, 0, 0, 0, 0, 0⟩)), .spawn .spawn .prestart] := by decide
  obtain ⟨t, hrun, ht⟩ := machine.exec_reaches hexec
  obtain ⟨hd, hcycle⟩ := locks_ordered_and_acyclic hrun
  refine ⟨t, hrun, ht, hd, hcycle ℕ (fun i => min i (4 - i)) ?_⟩
  intro i k p q hp hq hik hthread
  rw [ht] at hp hq
  dsimp only at hthread
  rcases i with _ | _ | _ | _ | _ | i
  · cases hp
    exact Or.inl rfl
  · cases hp
    exact Or.inl rfl
  · cases hp
    exact Or.inl rfl
  · -- The thread that asks for `stats` is suspended in its submission.
    obtain rfl : k = 1 := by omega
    cases hq
    exact Or.inr rfl
  · -- The thread that starts a worker has returned from the setter.
    have hk : k = 0 ∨ 5 ≤ k := by omega
    rcases hk with rfl | hk
    · cases hq
      exact Or.inr rfl
    · rw [List.getElem?_eq_none (by simpa using hk)] at hq
      cases hq
  · cases hp

end ThreadPools.Dynamic
