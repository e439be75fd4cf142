import ThreadPools.Fixed.Calls

/-! # No job of the fixed pool is left without a worker -/
namespace ThreadPools.Fixed
open Interleaving
open Move (call)
open Wakeup (Role Place Mode Board Rules)

def Pc.asleep (epoch : ℕ) : Pc → Bool
  | .worker (.parked e) | .worker (.drainParked e) => e == epoch
  | _ => false

def Pc.waking : Pc → Bool
  | .submit _ .loadIdle | .submit _ (.raiseToken _) | .submit _ .broadcast => true
  | _ => false

theorem Pc.broadcasts_of_waking {p : Pc} (h : p.waking = false) : p.broadcasts = false := by
  unfold Pc.broadcasts
  split
  · cases h
  · rfl

theorem Pc.role_stays (p : Pc) : p.role.stays ≤ p.live.toNat := by
  cases p with
  | submit j p => cases p <;> exact le_refl _
  | worker p => cases p <;> first | exact le_refl _ | exact Nat.zero_le _
  | cancel p k => cases k <;> exact le_refl _
  | idle r k => cases k <;> exact le_refl _
  | _ => exact le_refl _

theorem Pc.role_raises (p : Pc) : p.role.raises = p.broadcasts.toNat := by
  cases p with
  | submit j p => cases p <;> rfl
  | worker p => cases p <;> rfl
  | cancel p k => cases k <;> rfl
  | idle r k => cases k <;> rfl
  | _ => rfl

theorem Pc.role_pushesOf {p : Pc} {j : JobId} (h : p.role.pushesOf j ≠ 0) :
    ∃ q, p = .submit j q ∧ p.waking = true := by
  cases p with
  | submit i p =>
    have key : i = j ∧ (Pc.submit i p).waking = true := by
      cases p with
      | loadIdle => exact ⟨by simpa [Pc.role, SubmitPc.role, Role.pushesOf] using h, rfl⟩
      | raiseToken k => exact ⟨by simpa [Pc.role, SubmitPc.role, Role.pushesOf] using h, rfl⟩
      | _ => exact absurd rfl h
    exact ⟨p, by rw [key.1], key.2⟩
  | worker p => cases p <;> exact absurd rfl h
  | cancel p k => cases k <;> exact absurd rfl h
  | idle r k => cases k <;> exact absurd rfl h
  | _ => exact absurd rfl h

theorem Pc.role_of_asleep {p : Pc} {epoch : ℕ} (h : p.asleep epoch = true) : p.role = .parked epoch := by
  unfold Pc.asleep at h
  split at h
  · exact congrArg Role.parked (beq_iff_eq.mp h)
  · exact congrArg Role.parked (beq_iff_eq.mp h)
  · cases h

variable {sh : Shared} {ps : Multiset Pc} {exitGuard parkGuard : Prop}

namespace Consistent

theorem live_false (inv : Consistent exitGuard parkGuard sh ps) (hw : sh.state.liveWorkers = 0) :
    ∀ p ∈ ps, p.live = false := by
  intro p hp
  have h := inv.gauged.eq_zero (g := .liveWorkers) hw p hp
  cases hl : p.live with
  | false => rfl
  | true => simp [Gauge.weight, hl] at h

/-- Without a worker and a submitter in flight, only a stop call that has stored its
lifecycle can hold a job that counts. -/
theorem holdings_idle (inv : Consistent exitGuard parkGuard sh ps) (hl : sh.state.lifecycle.rank < 2)
    {p : Pc} (hp : p ∈ ps) (hlive : p.live = false) (hin : p.inside = false) :
    ∀ e ∈ p.holdings, Phase.weight .queueSlot e.2 = 0 ∧ Phase.weight .running e.2 = 0 := by
  have hk := inv.known p hp
  intro e he
  cases p with
  | submit j p =>
    cases p with
    | enter =>
      obtain rfl := Multiset.mem_singleton.mp he
      exact ⟨rfl, rfl⟩
    | departGate result | departWaiters result | departNotify result | returned result =>
      cases result with
      | none => exact absurd he (Multiset.notMem_zero e)
      | some error =>
        obtain rfl := Multiset.mem_singleton.mp he
        exact ⟨rfl, rfl⟩
    | _ => cases hin
  | worker p =>
    cases p with
    | exited => exact absurd he (Multiset.notMem_zero e)
    | _ => cases hlive
  | stop p =>
    cases p with
    | drain | begin | beginCancelling | afterCancelling | afterCancelled | notifyAll | next =>
      have := hk.1 rfl
      omega
    | _ => exact absurd he (Multiset.notMem_zero e)
  | cancel p k =>
    cases k with
    | worker j => cases hlive
    | stop j rest report =>
      have : 2 ≤ sh.state.lifecycle.rank := hk
      omega
  | _ => exact absurd he (Multiset.notMem_zero e)

/-- Nothing is left behind when the crew has gone. -/
theorem deserted (inv : Consistent exitGuard parkGuard sh ps) (hg : exitGuard ∨ 2 ≤ sh.poolSize)
    (hl : sh.state.lifecycle = .shuttingDown) (hw : sh.state.liveWorkers = 0) :
    sh.globalQueue = [] ∧ sh.acct.count .queueSlot = 0 ∧ sh.acct.count .running = 0 := by
  have hlive := inv.live_false hw
  have hstay : total Role.stays (ps.map Pc.role) = 0 := by
    rw [total_map]
    refine total_eq_zero_iff.mpr fun p hp => ?_
    simpa [hlive p hp] using p.role_stays
  obtain ⟨hlen, -, hin⟩ := inv.wake.calm_of_deserted (by simp [board, hl, mode])
    (hg.imp_right fun h => ⟨trivial, h⟩) hstay
  have hq : sh.globalQueue = [] := List.length_eq_zero_iff.mp hlen
  have hz := (hin trivial).2
  rw [total_map] at hz
  -- No entry of the book holds a slot or runs, so neither counter does.
  have hbook : ∀ e ∈ stored sh + ps.bind Pc.holdings,
      Phase.weight .queueSlot e.2 = 0 ∧ Phase.weight .running e.2 = 0 := by
    intro e he
    rcases Multiset.mem_add.mp he with he | he
    · simp only [stored, Book.stored, hq, List.map_nil, Multiset.coe_nil, zero_add, Multiset.mem_coe,
        List.mem_map] at he
      obtain ⟨x, -, rfl⟩ := he
      cases x.2 <;> exact ⟨rfl, rfl⟩
    · obtain ⟨p, hp, he⟩ := Multiset.mem_bind.mp he
      refine inv.holdings_idle (by simp [hl, ExecutorServiceLifecycle.rank]) hp (hlive p hp) ?_ e he
      have hi := total_eq_zero_iff.mp hz p hp
      rw [p.role_weights.2.1] at hi
      cases h : p.inside with
      | false => rfl
      | true => simp [Gauge.weight, h] at hi
  refine ⟨hq, ?_, ?_⟩
  · exact (inv.recorded.counts .queueSlot).trans (total_eq_zero_iff.mpr fun e he => (hbook e he).1)
  · exact (inv.recorded.counts .running).trans (total_eq_zero_iff.mpr fun e he => (hbook e he).2)

/-- A queued job is not left to parked workers once its submitter is done with it. -/
theorem awake (inv : Consistent exitGuard parkGuard sh ps) {j : JobId} (hj : j ∈ sh.globalQueue)
    (hl : sh.state.lifecycle = .running ∨
      sh.state.lifecycle = .shuttingDown ∧ parkGuard ∧ 0 < sh.state.liveWorkers)
    (hs : ∀ p ∈ ps, p.live = true → p.asleep sh.epoch = true)
    (hp : ∀ q, .submit j q ∈ ps → (Pc.submit j q).waking = false)
    (hr : ∀ p ∈ ps, p.broadcasts = false) : False := by
  have hsleep : ∀ r ∈ ps.map Pc.role, 0 < r.stays → r = .parked (board sh).epoch := by
    intro r hr hpos
    obtain ⟨p, hp, rfl⟩ := Multiset.mem_map.mp hr
    have hstay := p.role_stays
    refine Pc.role_of_asleep (hs p hp ?_)
    cases ht : p.live with
    | true => rfl
    | false =>
      simp only [ht, Bool.toNat_false] at hstay
      omega
  refine inv.wake.no_lost_wakeup (j := j) hj ?_ ?_ ?_ hsleep
  · rcases hl with hl | ⟨hl, hg, hw⟩
    · exact Or.inl (by simp [board, hl, mode])
    · refine Or.inr ⟨by simp [board, hl, mode], hg, ?_⟩
      obtain ⟨p, hp, hpos⟩ := total_pos_iff.mp (Nat.lt_of_lt_of_eq hw (inv.gauged .liveWorkers))
      have ht : p.live = true := by
        cases h : p.live with
        | true => rfl
        | false => simp [Gauge.weight, h] at hpos
      refine total_pos_iff.mpr ⟨p.role, Multiset.mem_map_of_mem _ hp, ?_⟩
      rw [Pc.role_of_asleep (hs p hp ht)]
      exact Nat.one_pos
  · rw [total_map]
    refine total_eq_zero_iff.mpr fun p hmem => ?_
    by_contra h
    obtain ⟨q, rfl, hw⟩ := Pc.role_pushesOf h
    simp [hp q hmem] at hw
  · rw [total_map]
    refine total_eq_zero_iff.mpr fun p hmem => ?_
    rw [p.role_raises, hr p hmem]
    rfl

end Consistent

section
variable {config : FixedThreadPoolConfig} {t : State Shared Pc}

/-- Graceful shutdown strands nothing in a run whose only worker, if there is just one,
never exits while a job is queued: once no worker is registered, the injector is empty, no
slot is held and every job whose submission returned `Ok` has been claimed and finished. -/
theorem crew_leaves_nothing (h : machine.Run DrainedAtExit (init config) t)
    (hl : t.shared.state.lifecycle = .shuttingDown) (hw : t.shared.state.liveWorkers = 0) :
    t.shared.globalQueue = [] ∧ t.shared.acct.count .queueSlot = 0 ∧ AllFinished t.shared.history ∧
      ∀ j, .submit j (.returned none) ∈ t.actors → .accounted ∈ t.shared.history j := by
  have hsize := poolSize_eq h
  have hrun : machine.Run (restricted (t.shared.poolSize = 1) False) (init config) t := by
    refine h.weaken_along fun u hu p c hok => ⟨fun hg hp hz => hok hp hz ?_, False.elim⟩
    rw [poolSize_eq hu, ← hsize]
    exact hg
  have inv : Consistent (t.shared.poolSize = 1) False t.shared t.actors := .of_run hrun
  have hg : t.shared.poolSize = 1 ∨ 2 ≤ t.shared.poolSize := by
    have := config.poolSize_pos
    omega
  obtain ⟨hq, hslot, hrunning⟩ := inv.deserted hg hl hw
  have hfin := inv.recorded.quiet_finished hslot hrunning
  exact ⟨hq, hslot, hfin, fun j hj => hfin j (accepted_of_ok h hj rfl)⟩

end

def soleWorker : FixedThreadPoolConfig where
  poolSize := 1
  queueCapacity := none
  poolSize_pos := Nat.one_pos
  queueCapacity_pos := unbounded_pos

def drainedSchedule : List (Move Outcome Op) :=
  call (Op.submit 0) :: (turns 1 11 Outcome.ok ++ turns 0 16 Outcome.ok) ++
    call Op.shutdown :: (turns 2 2 Outcome.ok ++ turns 0 8 Outcome.ok)

theorem crew_leaves_nothing_sole : ∃ t, machine.Run DrainedAtExit (init soleWorker) t ∧
    t.shared.state.lifecycle = .shuttingDown ∧ t.shared.state.liveWorkers = 0 ∧
      t.shared.globalQueue = [] ∧ .accounted ∈ t.shared.history 0 := by
  have hexec : (machine.exec DrainedAtExit (init soleWorker) drainedSchedule).map
      (fun t => (t.shared.state.lifecycle, t.shared.state.liveWorkers, t.actors[1]?)) =
      some (.shuttingDown, 0, some (Pc.submit 0 (.returned none))) := by
    decide
  obtain ⟨t, hrun, ht⟩ := machine.exec_reaches hexec
  simp only [Prod.mk.injEq] at ht
  obtain ⟨hl, hw, hj⟩ := ht
  obtain ⟨hq, -, -, hfin⟩ := crew_leaves_nothing hrun hl hw
  exact ⟨t, hrun, hl, hw, hq, hfin 0 (List.mem_of_getElem? hj)⟩

/-- Submitter 1 is in its acceptance callback when the pool is shut down. The worker
reads the queued count, the submitter publishes and leaves, and the worker reads the
in-flight count. -/
def strandedSchedule : List (Move Outcome Op) :=
  call (Op.submit 0) :: turns 1 3 Outcome.ok ++
    call Op.shutdown :: (turns 2 2 Outcome.ok ++ turns 0 6 Outcome.ok ++ turns 1 7 Outcome.ok ++
      turns 0 3 Outcome.ok ++ turns 1 1 Outcome.ok)

theorem only_worker_strands_job : ∃ t, machine.Run Machine.free (init soleWorker) t ∧
    t.shared.state.lifecycle = .shuttingDown ∧ t.shared.state.liveWorkers = 0 ∧
      t.shared.globalQueue = [0] ∧ .submit 0 (.returned none) ∈ t.actors := by
  have hexec : (machine.exec Machine.free (init soleWorker) strandedSchedule).map
      (fun t => (t.shared.state.lifecycle, t.shared.state.liveWorkers, t.shared.globalQueue,
        t.actors)) =
      some (.shuttingDown, 0, [0], [.worker .exited, .submit 0 (.returned none), .shutdown .returned]) := by
    decide
  obtain ⟨t, hrun, ht⟩ := machine.exec_reaches hexec
  simp only [Prod.mk.injEq] at ht
  exact ⟨t, hrun, ht.1, ht.2.1, ht.2.2.1, by simp [ht.2.2.2]⟩

end ThreadPools.Fixed
