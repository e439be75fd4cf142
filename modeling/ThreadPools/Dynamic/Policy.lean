import ThreadPools.Dynamic.Workers
import ThreadPools.Dynamic.Calls

/-! # Worker counts of the dynamic pool

The setters keep the limits consistent, a worker is registered only below the limit
that applies at that moment, and a worker that retires has checked under the monitor
that the pool can spare it.
-/
namespace ThreadPools.Dynamic
open Interleaving
open Move (call act)

variable {sh sh' : Shared} {p p' q : Pc} {rest ps : Multiset Pc} {c : Outcome} {j : JobId}

def Shared.limits (sh : Shared) : ℕ × ℕ × Option ℕ :=
  (sh.state.corePoolSize, sh.state.maximumPoolSize, sh.acct.queueCapacity)

def Shared.Wants (sh : Shared) : Prop :=
  sh.state.liveWorkers < sh.state.corePoolSize ∨ sh.state.liveWorkers = 0 ∨
    sh.state.liveWorkers < sh.state.maximumPoolSize ∧ sh.acct.queueCapacity ≠ none

inductive Resized (sh sh' : Shared) : Prop where
  | kept (hs : sh'.limits = sh.limits) (hl : sh'.state.liveWorkers ≤ sh.state.liveWorkers)
  | grown (hs : sh'.limits = sh.limits) (hl : sh'.state.liveWorkers = sh.state.liveWorkers + 1) (hw : sh.Wants)
  | core (n : ℕ) (hn : n ≤ sh.state.maximumPoolSize) (hs : sh'.limits = (n, sh.limits.2))
      (hl : sh'.state.liveWorkers = sh.state.liveWorkers)
  | maximum (n : ℕ) (hn : 0 < n) (hc : sh.state.corePoolSize ≤ n)
      (hs : sh'.limits = (sh.state.corePoolSize, n, sh.acct.queueCapacity))
      (hl : sh'.state.liveWorkers = sh.state.liveWorkers)

namespace Resized

theorem of_state (hc : sh'.acct.queueCapacity = sh.acct.queueCapacity) (hs : sh'.state = sh.state) :
    Resized sh sh' := by
  refine .kept ?_ ?_
  · rw [Shared.limits, Shared.limits, hs, hc]
  · rw [hs]

theorem of_same (ha : sh'.acct = sh.acct) (hs : sh'.state = sh.state) : Resized sh sh' := of_state (by rw [ha]) hs

theorem of_sub {a : PoolAccounting} {d : Counter} (ha : sh.acct.sub d = some a) (ha' : sh'.acct = a)
    (hs : sh'.state = sh.state) : Resized sh sh' := by
  obtain ⟨-, rfl⟩ := PoolAccounting.sub_eq_some ha
  exact of_state (by rw [ha']) hs

end Resized

open Resized

theorem submitStep_resized {p : SubmitPc} (h : submitStep sh j c p = some (sh', p')) : Resized sh sh' := by
  cases p with
  | enter =>
    simp only [submitStep] at h
    split at h
    · rename_i ha
      obtain ⟨g, -, rfl⟩ := Option.map_eq_some_iff.mp ha
      cases h
      exact of_state rfl rfl
    · cases h
      exact of_same rfl rfl
  | checkState =>
    simp only [submitStep] at h
    repeat' split at h
    all_goals cases h
    · exact of_same rfl rfl
    · exact .grown rfl rfl (.inl ‹_›)
    · exact .grown rfl rfl (.inr (.inl ‹_›))
    · exact of_same rfl rfl
  | reserveSlot =>
    simp only [submitStep] at h
    split at h
    · rename_i ha
      obtain rfl := PoolAccounting.tryReserveBoundedSlot_eq ha
      cases h
      exact of_state rfl rfl
    · rename_i hnone
      split at h <;> cases h
      · exact .grown rfl rfl (.inr (.inr ⟨‹_›, PoolAccounting.tryReserveBoundedSlot_none hnone⟩))
      · exact of_same rfl rfl
  | leave result =>
    simp only [submitStep] at h
    split at h
    · rename_i ha
      obtain ⟨g, -, hg⟩ := Option.map_eq_some_iff.mp ha
      cases hg
      cases h
      exact of_state rfl rfl
    · cases h
      exact of_same rfl rfl
  | _ =>
    simp only [submitStep, Shared.lock, Shared.lockQueue, Shared.withLock, Shared.lower] at h
    repeat' split at h
    all_goals cases h
    all_goals first
      | exact of_same rfl rfl
      | exact of_state rfl rfl
      | exact of_sub ‹_› rfl rfl

theorem spawnStep_resized {p : SpawnPc} {k : SpawnCaller} (h : spawnStep sh k c p = some (sh', p')) :
    Resized sh sh' := by
  cases p with
  | rollback =>
    simp only [spawnStep] at h
    split at h <;> cases h
    · exact .kept rfl (Nat.sub_le _ _)
    · exact of_same rfl rfl
  | spawn =>
    cases c <;> cases h
    all_goals exact of_same rfl rfl
  | _ =>
    cases h
    exact of_same rfl rfl

theorem prestartStep_resized (h : prestartStep sh = some (sh', p')) : Resized sh sh' := by
  obtain ⟨s, hs, h⟩ := Option.map_eq_some_iff.mp h
  obtain ⟨-, rfl⟩ := sh.lock_eq_some hs
  repeat' split at h
  all_goals cases h
  · exact of_same rfl rfl
  · exact of_same rfl rfl
  · rename_i hcore
    exact .grown rfl rfl (.inl (Nat.lt_of_not_le hcore))

theorem workerStep_resized {p : WorkerPc} (h : workerStep sh c p = some (sh', p')) : Resized sh sh' := by
  cases p with
  | takePop =>
    simp only [workerStep] at h
    split at h
    · cases h
      exact of_same rfl rfl
    · split at h
      · rename_i hs
        obtain rfl := takeQueued_eq_some hs
        cases h
        exact of_same rfl rfl
      · cases h
        exact of_same rfl rfl
  | unregister =>
    simp only [workerStep] at h
    split at h <;> cases h
    · exact .kept rfl (Nat.sub_le _ _)
    · exact of_same rfl rfl
  | exitLock =>
    obtain ⟨s, hs, h⟩ := Option.map_eq_some_iff.mp h
    obtain ⟨-, rfl⟩ := sh.lock_eq_some hs
    split at h <;> cases h
    · exact .kept rfl (Nat.le_refl _)
    · exact of_same rfl rfl
  | _ =>
    simp only [workerStep, Shared.lock, Shared.lockQueue, Shared.lower] at h
    repeat' split at h
    all_goals first | (simp only [Option.map_some] at h; (repeat' split at h) <;> cases h) | cases h
    all_goals first
      | exact of_same rfl rfl
      | exact of_state rfl rfl
      | exact .kept rfl (Nat.le_refl _)
      | exact of_sub ‹_› rfl rfl

theorem stopStep_resized {p : StopPc} (h : stopStep sh p = some (sh', p')) : Resized sh sh' := by
  cases p with
  | lockState =>
    obtain ⟨s, hs, h⟩ := Option.map_eq_some_iff.mp h
    obtain ⟨-, rfl⟩ := sh.lock_eq_some hs
    cases hl : sh.state.lifecycle <;> simp only [hl] at h <;> cases h
    all_goals exact .kept rfl (Nat.le_refl _)
  | drain running jobs =>
    simp only [stopStep] at h
    split at h
    · cases h
      exact of_same rfl rfl
    · split at h
      · rename_i hs
        obtain rfl := takeQueued_eq_some hs
        cases h
        exact of_same rfl rfl
      · cases h
        exact of_same rfl rfl
  | next jobs report =>
    cases jobs <;> cases h
    all_goals exact of_same rfl rfl
  | _ =>
    simp only [stopStep, Shared.lock, Shared.lockQueue, Shared.withLock, Shared.lower] at h
    repeat' split at h
    all_goals cases h
    all_goals first
      | exact of_same rfl rfl
      | exact of_state rfl rfl
      | exact of_sub ‹_› rfl rfl

theorem ticketStep_resized {p : TicketPc} (h : ticketStep sh j p = some (sh', p')) : Resized sh sh' := by
  cases p with
  | remove =>
    simp only [ticketStep] at h
    split at h
    · split at h
      · rename_i hs
        obtain rfl := takeQueued_eq_some hs
        cases h
        exact of_same rfl rfl
      · cases h
        exact of_same rfl rfl
    · cases h
      exact of_same rfl rfl
  | _ =>
    simp only [ticketStep, Shared.lockQueue, Shared.lower] at h
    repeat' split at h
    all_goals cases h
    all_goals first
      | exact of_same rfl rfl
      | exact of_state rfl rfl
      | exact of_sub ‹_› rfl rfl

theorem setterStep_resized {p : SetterPc} (h : setterStep sh p = some (sh', p')) : Resized sh sh' := by
  cases p with
  | corePoolSize n =>
    simp only [setterStep] at h
    repeat' split at h
    all_goals cases h
    · exact of_same rfl rfl
    · exact .core n (Nat.le_of_not_lt ‹_›) rfl rfl
  | maximumPoolSize n =>
    simp only [setterStep] at h
    repeat' split at h
    all_goals cases h
    · exact of_same rfl rfl
    · exact of_same rfl rfl
    · exact .maximum n (Nat.pos_of_ne_zero ‹_›) (Nat.le_of_not_lt ‹_›) rfl rfl
  | _ =>
    simp only [setterStep, Shared.withLock] at h
    repeat' split at h
    all_goals cases h
    all_goals exact .kept rfl (Nat.le_refl _)

theorem step_resized (h : step sh c p = some (sh', p')) : Resized sh sh' := by
  cases p with
  | submit j p => exact submitStep_resized h
  | spawn p k => exact spawnStep_resized h
  | prestart => exact prestartStep_resized h
  | worker p => exact workerStep_resized h
  | stop p => exact stopStep_resized h
  | ticket j p => exact ticketStep_resized h
  | setter p => exact setterStep_resized h
  | shutdown p =>
    cases p with
    | lockState =>
      obtain ⟨s, hs, h⟩ := Option.map_eq_some_iff.mp h
      obtain ⟨-, rfl⟩ := sh.lock_eq_some hs
      split at h <;> cases h
      · exact .kept rfl (Nat.le_refl _)
      · exact of_same rfl rfl
    | _ =>
      cases h
      all_goals exact of_state rfl rfl
  | cancel p k =>
    cases p with
    | done =>
      cases k <;> cases h
      all_goals exact of_same rfl rfl
    | _ =>
      simp only [step, cancelStep, Shared.lower] at h
      repeat' split at h
      all_goals cases h
      all_goals first
        | exact of_same rfl rfl
        | exact of_state rfl rfl
        | exact of_sub ‹_› rfl rfl
  | join p =>
    cases p
    all_goals simp only [step, joinStep, Shared.lock] at h
    all_goals repeat' split at h
    all_goals cases h
    all_goals exact of_same rfl rfl
  | observe p =>
    cases p with
    | unlock o terminated =>
      cases o <;> cases h
      all_goals exact of_same rfl rfl
    | _ =>
      simp only [step, observeStep, Shared.lock] at h
      repeat' split at h
      all_goals cases h
      all_goals exact of_same rfl rfl
  | notifyLock k =>
    obtain ⟨s, hs, h⟩ := Option.map_eq_some_iff.mp h
    obtain ⟨-, rfl⟩ := sh.lock_eq_some hs
    cases h
    exact of_same rfl rfl
  | prestarted _ => cases h
  | panicked _ => cases h
  | _ =>
    cases h
    exact of_same rfl rfl

/-- The limits are those of some validated configuration with the capacity of this one. -/
structure Sized (config : ThreadPoolConfig) (sh : Shared) : Prop where
  capacity : sh.acct.queueCapacity = config.queueCapacity
  maximum : 1 ≤ sh.state.maximumPoolSize
  core : sh.state.corePoolSize ≤ sh.state.maximumPoolSize

theorem Sized.step {config : ThreadPoolConfig} (hz : Sized config sh) (h : Resized sh sh') : Sized config sh' := by
  have key : ∀ k m q, sh'.limits = (k, m, q) → q = config.queueCapacity → 1 ≤ m → k ≤ m → Sized config sh' := by
    intro k m q hs hq hm hk
    obtain ⟨rfl, rfl, rfl⟩ : sh'.state.corePoolSize = k ∧ sh'.state.maximumPoolSize = m ∧
      sh'.acct.queueCapacity = q := by simpa [Shared.limits] using hs
    exact ⟨hq, hm, hk⟩
  cases h with
  | kept hs _ => exact key _ _ _ hs hz.capacity hz.maximum hz.core
  | grown hs _ _ => exact key _ _ _ hs hz.capacity hz.maximum hz.core
  | core n hn hs _ => exact key _ _ _ hs hz.capacity hz.maximum hn
  | maximum n hn hc hs _ => exact key _ _ _ hs hz.capacity hn hc

/-- A step that registers a worker respects the limits. -/
theorem Sized.grows {config : ThreadPoolConfig} (hz : Sized config sh) (h : Resized sh sh')
    (hl : sh.state.liveWorkers < sh'.state.liveWorkers) :
    sh'.state.liveWorkers ≤ sh'.state.maximumPoolSize ∧
      (config.queueCapacity = none → sh'.state.liveWorkers ≤ max sh'.state.corePoolSize 1) := by
  have hmax := hz.maximum
  have hcore := hz.core
  cases h with
  | kept _ hle => omega
  | core n _ _ heq => omega
  | maximum n _ _ _ heq => omega
  | grown hs heq hw =>
    obtain ⟨hc, hm, -⟩ : sh'.state.corePoolSize = sh.state.corePoolSize ∧
      sh'.state.maximumPoolSize = sh.state.maximumPoolSize ∧ sh'.acct.queueCapacity = sh.acct.queueCapacity := by
      simpa [Shared.limits] using hs
    rcases hw with hw | hw | ⟨hw, hq⟩
    · exact ⟨by omega, fun _ => by omega⟩
    · exact ⟨by omega, fun _ => by omega⟩
    · exact ⟨by omega, fun hnone => absurd (hz.capacity.trans hnone) hq⟩

def Shared.Spares (sh : Shared) : Prop :=
  sh.state.lifecycle = .running → sh.state.corePoolSize < sh.state.liveWorkers ∨ sh.state.allowCoreThreadTimeout = true

def Pc.retires : Pc → Bool
  | .worker (.unmark true) | .worker (.consume true) | .worker .unregister => true
  | _ => false

theorem Pc.locks_of_retires (h : p.retires = true) : p.locks = true := by
  unfold Pc.retires at h
  split at h <;> first | rfl | cases h

theorem Shared.Spares.of_retire (hz : sh.state.corePoolSize ≤ sh.state.maximumPoolSize)
    (h : sh.state.idleWorkerCanRetire = true) : sh.Spares := by
  intro _
  simp only [ThreadPoolState.idleWorkerCanRetire, Bool.or_eq_true, Bool.and_eq_true, decide_eq_true_eq] at h
  rcases h with h | ⟨-, h⟩
  · exact .inl (Nat.lt_of_le_of_lt hz h)
  · exact h

theorem spares_step (hz : sh.state.corePoolSize ≤ sh.state.maximumPoolSize) (hd : Known sh p)
    (hk : p.retires = true → sh.Spares) (h : step sh c p = some (sh', p')) (hr : p'.retires = true) :
    sh'.Spares := by
  unfold Pc.retires at hr
  split at hr
  · obtain ⟨w, rfl, hw⟩ := worker_step h rfl
    obtain ⟨rfl, hc⟩ := workerStep_arrives hw
    exact .of_retire hz hc
  · obtain ⟨w, rfl, hw⟩ := worker_step h rfl
    obtain ⟨rfl, rfl⟩ := workerStep_arrives hw
    exact hk rfl
  · obtain ⟨w, rfl, hw⟩ := worker_step h rfl
    rcases workerStep_arrives hw with ⟨rfl, hl⟩ | ⟨rfl, rfl⟩ | ⟨rfl, hs⟩ | ⟨rfl, rfl, hover⟩
    · exact fun hrun => absurd hrun hl
    · exact fun hrun => by cases (hd rfl).symm.trans hrun
    · intro hrun
      rw [hs] at hrun ⊢
      exact hk rfl hrun
    · exact fun _ => .inl (Nat.lt_of_le_of_lt hz hover)
  · cases hr

section
variable {config : ThreadPoolConfig} {tickets : JobId → Bool} {t : State Shared Pc}

theorem sized_of_run (h : machine.Run Machine.free (init config tickets) t) : Sized config t.shared := by
  refine invariant_along (J := fun sh _ => Sized config sh) .refl ?_ ?_ h ?_
  · intro sh p rest c sh' p' _ hz _ hm
    exact hz.step (step_resized hm)
  · intro sh ps op sh' p _ hz hm
    rw [invoke_same hm]
    exact ⟨hz.capacity, hz.maximum, hz.core⟩
  · exact ⟨rfl, config.maximumPoolSize_pos, config.corePoolSize_le⟩

/-- Between the decision to exit and the exit the pool keeps being able to spare the worker. -/
theorem spares_of_run (h : machine.Run Machine.free (init config tickets) t) :
    ∀ p ∈ t.actors, p.retires = true → t.shared.Spares := by
  refine knowledge_along (I := fun sh ps => Consistent False False sh ps ∧ Sized config sh)
    (K := fun sh p => p.retires = true → sh.Spares) ?_ ?_ ?_ ?_ ?_ h (List.forall_mem_nil _)
  · exact fun u hu => ⟨Consistent.of_free_run hu, sized_of_run hu⟩
  · intro sh p rest c sh' p' inv hk _ hm hr
    exact spares_step inv.2.core (inv.1.known _ (Multiset.mem_cons_self _ rest)) hk hm hr
  · intro sh p rest c sh' p' q inv hq hk _ hm hr
    have hs := (state_frame hq (Pc.locks_of_retires hr) (step_effect hm) inv.1.gauged).2
    intro hrun
    rw [hs] at hrun ⊢
    exact hk hr hrun
  · exact fun _ => nofun
  · intro sh ps op sh' p _ hm
    refine ⟨fun hr => ?_, fun q _ hk hr => ?_⟩
    · cases op <;> simp only [invoke] at hm <;> (repeat' split at hm) <;> cases hm <;> cases hr
    · have hs := hk hr
      rw [invoke_same hm]
      exact hs

/-- Registered: running in the loop of the worker, or reserved before its thread exists. -/
def Pc.registered (p : Pc) : Bool := p.home.live

/-- In `stop_hook` or one of the accesses before and after it. -/
def Pc.inExit (p : Pc) : Bool := p.home.exiting

def Pc.markedIdle (p : Pc) : Bool := p.home.marked

/-- Without the monitor an actor is registered as a thread, and in both counters or in none. -/
theorem Pc.free_weights (h : p.locks = false) :
    Gauge.liveWorkerCount.weight p = Gauge.liveWorkers.weight p ∧ Gauge.liveWorkers.weight p = p.thread.toNat := by
  cases p with
  | spawn p k => cases h
  | worker p => cases p <;> first | exact ⟨rfl, rfl⟩ | cases h
  | notifyLock k => cases k <;> exact ⟨rfl, rfl⟩
  | notifyAll k | term k | publish k => cases h
  | idle r k => cases k <;> first | exact ⟨rfl, rfl⟩ | cases h
  | _ => exact ⟨rfl, rfl⟩

/-- While nobody holds the monitor the lock-free copies are up to date. -/
theorem Consistent.mirrored (inv : Consistent False False sh ps) (hl : sh.locked = false) :
    sh.liveWorkerCount = sh.state.liveWorkers ∧ sh.idleWorkerCount = sh.state.idleWorkers ∧
      sh.state.liveWorkers = total (fun p => p.thread.toNat) ps := by
  have hfree : ∀ p ∈ ps, p.locks = false := by
    intro p hp
    obtain ⟨rest, rfl⟩ := Multiset.exists_cons_of_mem hp
    cases hpl : p.locks with
    | false => rfl
    | true => exact absurd (inv.gauged.locked hpl) (by simp [hl])
  have howed : ∀ g : Gauge, total g.owed ps = 0 := by
    intro g
    refine total_eq_zero_iff.mpr fun p hp => ?_
    have hpl := hfree p hp
    unfold Gauge.owed
    split
    · cases hpl
    · rfl
  have hvalue : ∀ g : Gauge, g.value sh = total g.weight ps := by
    intro g
    have hg := inv.gauged g
    rw [howed g] at hg
    exact hg
  have hlive : total Gauge.liveWorkerCount.weight ps = total Gauge.liveWorkers.weight ps :=
    total_congr fun p hp => (Pc.free_weights (hfree p hp)).1
  have hthread : total Gauge.liveWorkers.weight ps = total (fun p : Pc => p.thread.toNat) ps :=
    total_congr fun p hp => (Pc.free_weights (hfree p hp)).2
  exact ⟨(hvalue .liveWorkerCount).trans (hlive.trans (hvalue .liveWorkers).symm),
    (hvalue .idleWorkerCount).trans (hvalue .idleWorkers).symm, (hvalue .liveWorkers).trans hthread⟩

structure WorkerPolicy (config : ThreadPoolConfig) (t : State Shared Pc) : Prop where
  maximum : 1 ≤ t.shared.state.maximumPoolSize
  core : t.shared.state.corePoolSize ≤ t.shared.state.maximumPoolSize
  live : t.shared.state.liveWorkers = total (fun p : Pc => p.registered.toNat) t.actors
  exiting : t.shared.state.exitingWorkers = total (fun p : Pc => p.inExit.toNat) t.actors
  idle : t.shared.state.idleWorkers = total (fun p : Pc => p.markedIdle.toNat) t.actors
  sound : ∀ e, .panicked e ∉ t.actors
  mirrored : t.shared.locked = false → t.shared.liveWorkerCount = t.shared.state.liveWorkers ∧
    t.shared.idleWorkerCount = t.shared.state.idleWorkers ∧
      t.shared.state.liveWorkers = total (fun p : Pc => p.thread.toNat) t.actors
  grows : ∀ u, machine.Follows Machine.free t u → t.shared.state.liveWorkers < u.shared.state.liveWorkers →
    u.shared.state.liveWorkers ≤ u.shared.state.maximumPoolSize ∧
      (config.queueCapacity = none → u.shared.state.liveWorkers ≤ max u.shared.state.corePoolSize 1)
  exits : ∀ u, machine.Follows Machine.free t u → t.shared.state.exitingWorkers < u.shared.state.exitingWorkers →
    u.shared.state.lifecycle = .running →
      u.shared.state.corePoolSize ≤ u.shared.state.liveWorkers ∨ u.shared.state.allowCoreThreadTimeout = true

theorem unregister_exits (h : step sh c (.worker .unregister) = some (sh', p'))
    (hl : sh.state.exitingWorkers < sh'.state.exitingWorkers) :
    sh'.state = { sh.state with
      exitingWorkers := sh.state.exitingWorkers + 1, liveWorkers := sh.state.liveWorkers - 1 } := by
  simp only [step, workerStep] at h
  split at h <;> cases h
  · rfl
  · exact absurd hl (Nat.lt_irrefl _)

theorem worker_policy (h : machine.Run Machine.free (init config tickets) t) : WorkerPolicy config t := by
  have inv := Consistent.of_free_run h
  have hz := sized_of_run h
  refine ⟨hz.maximum, hz.core, inv.gauged.eq_total (g := .liveWorkers) nofun,
    inv.gauged.eq_total (g := .exitingWorkers) nofun, inv.gauged.eq_total (g := .idleWorkers) nofun, ?_,
    inv.mirrored, ?_, ?_⟩
  · intro e hm
    exact inv.sound _ (Multiset.mem_coe.mpr hm) e rfl
  · intro u hu hl
    cases hu with
    | @act i c p r hp hs hok =>
      obtain ⟨r, hr, he⟩ := Option.map_eq_some_iff.mp hs
      cases he
      exact hz.grows (step_resized hr) hl
    | @call op r hc =>
      rw [invoke_same hc] at hl
      exact absurd hl (Nat.lt_irrefl _)
  · intro u hu hl hrun
    cases hu with
    | @act i c p r hp hs hok =>
      obtain ⟨r, hr, he⟩ := Option.map_eq_some_iff.mp hs
      cases he
      rcases (step_effect hr).exiting with hle | rfl
      · exact absurd hl (Nat.not_lt_of_le hle)
      · have heq := unregister_exits hr hl
        have hspares := spares_of_run h _ (List.mem_of_getElem? hp) rfl
        simp only [heq] at hrun ⊢
        refine (hspares hrun).imp_left fun hlt => ?_
        omega
    | @call op r hc =>
      rw [invoke_same hc] at hl
      exact absurd hl (Nat.lt_irrefl _)

end

/-- Two workers are prestarted after the pool has been enlarged; once it has shrunk again one of
them times out and retires. -/
def retiringSchedule : List (Move Outcome Op) :=
  call (.setMaximumPoolSize 2) :: turns 0 2 .ok ++ call (.setCorePoolSize 2) :: turns 1 2 .ok ++
    call .prestartCoreThread :: turns 2 4 .ok ++ call .prestartCoreThread :: turns 4 4 .ok ++
    call (.setCorePoolSize 1) :: turns 6 2 .ok ++ turns 3 12 .ok ++ act 3 .err :: turns 3 8 .ok

theorem worker_policy_retiring : ∃ t, machine.Run Machine.free (init soleWorker fun _ => false) t ∧
    t.actors[3]? = some (.worker .stopHook) ∧ t.shared.state.liveWorkers = 1 ∧
    t.shared.state.exitingWorkers = 1 ∧ t.shared.state.maximumPoolSize = 2 ∧ WorkerPolicy soleWorker t := by
  have hexec : (machine.exec Machine.free (init soleWorker fun _ => false) retiringSchedule).map (fun t =>
      (t.actors[3]?, t.shared.state.liveWorkers, t.shared.state.exitingWorkers,
        t.shared.state.maximumPoolSize)) = some (some (.worker .stopHook), 1, 1, 2) := by
    decide
  obtain ⟨t, hrun, ht⟩ := machine.exec_reaches hexec
  simp only [Prod.mk.injEq] at ht
  obtain ⟨hactor, hlive, hexiting, hmaximum⟩ := ht
  exact ⟨t, hrun, hactor, hlive, hexiting, hmaximum, worker_policy hrun⟩

end ThreadPools.Dynamic
