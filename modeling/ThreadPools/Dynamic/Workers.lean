import ThreadPools.Dynamic.Runs

/-! # No job of the dynamic pool is left without a worker -/
namespace ThreadPools.Dynamic
open Interleaving
open Move (call)
open Wakeup (Role Place Mode Board Rules)

def SubmitPc.reserves : SubmitPc → Bool
  | .unlockReserved | .beginAccept | .callAccept | .accepting | .rollback | .lockQueue
  | .publishSubmitted | .publishQueued | .decideEntry => true
  | _ => false

def Pc.reserves : Pc → Bool
  | .submit _ p => p.reserves
  | _ => false

def Pc.isThread : Pc → Bool
  | .worker p => p.live
  | _ => false

def Pc.thread (p : Pc) : Bool := p.home.isThread

def Pc.asleep (epoch : ℕ) : Pc → Bool
  | .worker (.parked _ e) | .worker (.drainParked e) => e == epoch
  | _ => false

/-- Between the push of a job and the end of `wake_one_idle_worker`. -/
def Pc.waking : Pc → Bool
  | .submit _ .unlockQueue | .submit _ .loadIdle | .submit _ (.raiseToken _) | .submit _ .broadcast => true
  | _ => false

theorem Pc.broadcasts_of_waking {p : Pc} (h : p.waking = false) : p.broadcasts = false := by
  unfold Pc.broadcasts
  split
  · cases h
  · rfl

theorem Pc.place_reserves (p : Pc) : p.place.reserves = 0 := by
  cases p with
  | submit j p => cases p <;> rfl
  | spawn p k => cases k <;> rfl
  | worker p => cases p <;> rfl
  | cancel p k => cases k <;> rfl
  | _ => rfl

theorem Pc.place_works (p : Pc) : p.place.works = p.isThread.toNat ∧ p.place.stays = p.isThread.toNat := by
  cases p with
  | submit j p => cases p <;> exact ⟨rfl, rfl⟩
  | spawn p k => cases k <;> exact ⟨rfl, rfl⟩
  | worker p => cases p <;> exact ⟨rfl, rfl⟩
  | cancel p k => cases k <;> exact ⟨rfl, rfl⟩
  | _ => exact ⟨rfl, rfl⟩

theorem Pc.role_reserves (p : Pc) : p.role.reserves = p.reserves.toNat := by
  unfold Pc.role
  split
  · rename_i j p
    cases p <;> rfl
  · rename_i p k
    cases p <;> cases k <;> rfl
  · rename_i p
    cases p with
    | unmark retire => cases retire <;> rfl
    | consume retire => cases retire <;> rfl
    | _ => rfl
  · rename_i hs _ _
    have hr : p.reserves = false := by cases p <;> first | rfl | exact (hs _ _ rfl).elim
    rw [hr]
    exact p.home.place_reserves

/-- A staying worker is a thread, and a thread or a reserved worker is registered. -/
theorem Pc.role_thread (p : Pc) :
    p.role.stays ≤ p.thread.toNat ∧ p.thread.toNat ≤ p.role.works ∧
      p.role.works ≤ p.thread.toNat + p.role.grows := by
  unfold Pc.role
  split
  · rename_i j p
    cases p <;> exact ⟨le_refl _, le_refl _, Nat.zero_le _⟩
  · rename_i p k
    cases p <;> cases k <;> refine ⟨le_refl _, Nat.zero_le _, ?_⟩
    all_goals first | exact le_refl _ | exact Nat.zero_le _
  · rename_i p
    cases p with
    | unmark retire => cases retire <;> decide
    | consume retire => cases retire <;> decide
    | _ => first | exact ⟨le_refl _, le_refl _, le_refl _⟩ | decide
  · obtain ⟨hw, hs⟩ := p.home.place_works
    exact ⟨le_of_eq hs, le_of_eq hw.symm, le_of_eq hw⟩

theorem Pc.role_raises (p : Pc) : p.role.raises = p.broadcasts.toNat := by
  unfold Pc.role
  split
  · rename_i j p
    cases p <;> rfl
  · rename_i p k
    cases p <;> cases k <;> rfl
  · rename_i p
    cases p with
    | unmark retire => cases retire <;> rfl
    | consume retire => cases retire <;> rfl
    | _ => rfl
  · rename_i hs _ _
    have hb : p.broadcasts = false := by cases p <;> first | rfl | exact (hs _ _ rfl).elim
    rw [hb]
    rfl

theorem Pc.role_pushesOf {p : Pc} {j : JobId} (h : p.role.pushesOf j ≠ 0) :
    ∃ q, p = .submit j q ∧ p.waking = true := by
  unfold Pc.role at h
  split at h
  · rename_i i p
    have key : i = j ∧ (Pc.submit i p).waking = true := by
      cases p with
      | unlockQueue => exact ⟨by simpa [SubmitPc.role, Role.pushesOf] using h, rfl⟩
      | loadIdle => exact ⟨by simpa [SubmitPc.role, Role.pushesOf] using h, rfl⟩
      | raiseToken k => exact ⟨by simpa [SubmitPc.role, Role.pushesOf] using h, rfl⟩
      | _ => exact absurd rfl h
    exact ⟨p, by rw [key.1], key.2⟩
  · rename_i p k
    cases p <;> cases k <;> exact absurd rfl h
  · rename_i p
    cases p with
    | unmark retire => cases retire <;> exact absurd rfl h
    | consume retire => cases retire <;> exact absurd rfl h
    | _ => exact absurd rfl h
  · exact absurd rfl h

theorem Pc.role_of_asleep {p : Pc} {epoch : ℕ} (h : p.asleep epoch = true) : p.role = .parked epoch := by
  unfold Pc.asleep at h
  split at h
  · exact congrArg Role.parked (beq_iff_eq.mp h)
  · exact congrArg Role.parked (beq_iff_eq.mp h)
  · cases h

variable {sh : Shared} {ps : Multiset Pc} {exitGuard parkGuard : Prop}

namespace Consistent

theorem stays_eq_zero (h : ∀ p ∈ ps, p.thread = true → p = .worker .unregister) :
    total Role.stays (ps.map Pc.role) = 0 := by
  rw [total_map]
  refine total_eq_zero_iff.mpr fun p hp => ?_
  cases ht : p.thread with
  | false => simpa [ht] using p.role_thread.1
  | true =>
    rw [h p hp ht]
    rfl

/-- Nothing is left behind when every remaining worker has decided to leave. -/
theorem deserted (inv : Consistent exitGuard parkGuard sh ps) (hg : exitGuard)
    (hl : sh.state.lifecycle = .shuttingDown) (h : ∀ p ∈ ps, p.thread = true → p = .worker .unregister) :
    sh.globalQueue = [] ∧ ∀ p ∈ ps, p.reserves = false := by
  have hm : (board sh).mode = .draining := by simp [board, hl, mode]
  obtain ⟨hlen, hres, -⟩ := inv.wake.calm_of_deserted hm (Or.inl hg) (stays_eq_zero h)
  refine ⟨List.length_eq_zero_iff.mp hlen, fun p hp => ?_⟩
  rw [total_map] at hres
  have hz := total_eq_zero_iff.mp hres p hp
  rw [Pc.role_reserves] at hz
  cases hr : p.reserves with
  | false => rfl
  | true => simp [hr] at hz

theorem live_eq (inv : Consistent exitGuard parkGuard sh ps) :
    sh.state.liveWorkers = total Role.works (ps.map Pc.role) := by
  have h := inv.gauged .liveWorkers
  have ho : total Gauge.liveWorkers.owed ps = 0 := total_eq_zero_iff.mpr fun _ _ => rfl
  rw [ho] at h
  rw [total_map, total_congr fun p _ => p.role_weights.2.2.1]
  exact h

theorem thread_false (inv : Consistent exitGuard parkGuard sh ps) (hl : sh.state.liveWorkers = 0) :
    ∀ p ∈ ps, p.thread = false := by
  intro p hp
  have hz := inv.live_eq
  rw [hl, total_map] at hz
  have hw := total_eq_zero_iff.mp hz.symm p hp
  have ht := p.role_thread.2.1
  cases h : p.thread with
  | false => rfl
  | true => simp [h, hw] at ht

/-- Some worker thread is registered while no submitter can add one. -/
theorem exists_thread (inv : Consistent exitGuard parkGuard sh ps) (hl : sh.state.lifecycle ≠ .running)
    (hw : 0 < sh.state.liveWorkers) : ∃ p ∈ ps, p.thread = true := by
  rw [inv.live_eq, total_map] at hw
  obtain ⟨p, hp, hpos⟩ := total_pos_iff.mp hw
  have hgrow : p.role.grows = 0 := Nat.eq_zero_of_not_pos fun hg => hl (inv.running_of_grows hp hg)
  have ht := p.role_thread.2.2
  refine ⟨p, hp, ?_⟩
  cases h : p.thread with
  | true => rfl
  | false =>
    simp only [h, hgrow, Bool.toNat_false] at ht
    omega

/-- A queued job is not left to parked workers once its submitter is done with it. -/
theorem awake (inv : Consistent exitGuard parkGuard sh ps) {j : JobId} (hj : j ∈ sh.globalQueue)
    (hl : sh.state.lifecycle = .running ∨
      sh.state.lifecycle = .shuttingDown ∧ parkGuard ∧ 0 < sh.state.liveWorkers)
    (hs : ∀ p ∈ ps, p.thread = true → p.asleep sh.epoch = true)
    (hp : ∀ q, .submit j q ∈ ps → (Pc.submit j q).waking = false)
    (hr : ∀ p ∈ ps, p.broadcasts = false) : False := by
  have hsleep : ∀ r ∈ ps.map Pc.role, 0 < r.stays → r = .parked (board sh).epoch := by
    intro r hr hpos
    obtain ⟨p, hp, rfl⟩ := Multiset.mem_map.mp hr
    have hstay := p.role_thread.1
    refine Pc.role_of_asleep (hs p hp ?_)
    cases ht : p.thread with
    | true => rfl
    | false =>
      simp only [ht, Bool.toNat_false] at hstay
      omega
  refine inv.wake.no_lost_wakeup (j := j) hj ?_ ?_ ?_ hsleep
  · rcases hl with hl | ⟨hl, hg, hw⟩
    · exact Or.inl (by simp [board, hl, mode])
    · refine Or.inr ⟨by simp [board, hl, mode], hg, ?_⟩
      obtain ⟨p, hp, ht⟩ := inv.exists_thread (by simp [hl]) hw
      refine total_pos_iff.mpr ⟨p.role, Multiset.mem_map_of_mem _ hp, ?_⟩
      rw [Pc.role_of_asleep (hs p hp ht)]
      exact Nat.one_pos
  · rw [total_map]
    refine total_eq_zero_iff.mpr fun p hmem => ?_
    by_contra h
    obtain ⟨q, rfl, hw⟩ := Pc.role_pushesOf h
    simp [hp q hmem] at hw
  · rw [total_map]
    refine total_eq_zero_iff.mpr fun p hmem => ?_
    rw [p.role_raises, hr p hmem]
    rfl

end Consistent

section
variable {config : ThreadPoolConfig} {tickets : JobId → Bool} {t : State Shared Pc}

/-- Graceful shutdown strands nothing in a run whose last worker never exits while
a job is queued: once every registered worker is leaving, no job is in the FIFO and
no submitter has one to publish. -/
theorem drained_when_deserted (h : machine.Run DrainedAtExit (init config tickets) t)
    (hl : t.shared.state.lifecycle = .shuttingDown)
    (hw : t.shared.state.liveWorkers = 0 ∨ ∀ p ∈ t.actors, p.thread = true → p = .worker .unregister) :
    t.shared.globalQueue = [] ∧ ∀ p ∈ t.actors, p.reserves = false := by
  have inv : Consistent True False t.shared t.actors :=
    .of_run (h.weaken fun _ _ _ _ hok => ⟨fun _ => hok, False.elim⟩)
  refine inv.deserted trivial hl fun p hp ht => ?_
  rcases hw with hw | hw
  · simp [inv.thread_false hw p hp] at ht
  · exact hw p hp ht

end

def soleWorker : ThreadPoolConfig where
  corePoolSize := 1
  maximumPoolSize := 1
  queueCapacity := none
  keepAlive := 1
  allowCoreThreadTimeout := false
  maximumPoolSize_pos := Nat.one_pos
  corePoolSize_le := Nat.one_pos
  queueCapacity_pos := unbounded_pos
  keepAlive_pos := Nat.one_pos

/-- The worker runs job 0, the pool is shut down and the worker exits. -/
def drainedSchedule : List (Move Outcome Op) :=
  call (Op.submit 0 0) :: (turns 0 19 Outcome.ok ++ turns 1 21 Outcome.ok) ++
    call Op.shutdown :: (turns 2 5 Outcome.ok ++ turns 1 8 Outcome.ok)

theorem drained_when_deserted_sole : ∃ t, machine.Run DrainedAtExit (init soleWorker fun _ => false) t ∧
    t.shared.state.lifecycle = .shuttingDown ∧ t.shared.state.liveWorkers = 0 ∧
      t.shared.globalQueue = [] ∧ ∀ p ∈ t.actors, p.reserves = false := by
  have hexec : (machine.exec DrainedAtExit (init soleWorker fun _ => false) drainedSchedule).map
      (fun t => (t.shared.state.lifecycle, t.shared.state.liveWorkers)) = some (.shuttingDown, 0) := by
    decide
  obtain ⟨t, hrun, ht⟩ := machine.exec_reaches hexec
  obtain ⟨hl, hw⟩ := Prod.mk.inj ht
  exact ⟨t, hrun, hl, hw, drained_when_deserted hrun hl (Or.inl hw)⟩

/-- Submitter 0 is in its acceptance callback when the pool is shut down. The worker
reads the queued count, the submitter publishes and leaves, and the worker reads the
in-flight count. -/
def strandedSchedule : List (Move Outcome Op) :=
  call (Op.submit 0 0) :: turns 0 9 Outcome.ok ++
    call Op.shutdown ::
      (turns 2 5 Outcome.ok ++ turns 1 7 Outcome.ok ++ turns 0 8 Outcome.ok ++ turns 1 2 Outcome.ok)

theorem last_worker_strands_job : ∃ t, machine.Run Machine.free (init soleWorker fun _ => false) t ∧
    t.shared.state.lifecycle = .shuttingDown ∧ t.shared.state.liveWorkers = 0 ∧
      t.shared.globalQueue = [0] := by
  have hexec : (machine.exec Machine.free (init soleWorker fun _ => false) strandedSchedule).map
      (fun t => (t.shared.state.lifecycle, t.shared.state.liveWorkers, t.shared.globalQueue)) =
      some (.shuttingDown, 0, [0]) := by
    decide
  obtain ⟨t, hrun, ht⟩ := machine.exec_reaches hexec
  simp only [Prod.mk.injEq] at ht
  exact ⟨t, hrun, ht⟩

section
variable {config : ThreadPoolConfig} {tickets : JobId → Bool} {t : State Shared Pc}

/-- While the pool is running, a queued job and a reserved slot have a worker. -/
theorem staffed_while_running (h : machine.Run Machine.free (init config tickets) t)
    (hl : t.shared.state.lifecycle = .running)
    (hw : t.shared.globalQueue ≠ [] ∨ ∃ p ∈ t.actors, p.reserves = true) :
    1 ≤ t.shared.state.liveWorkers := by
  have inv := Consistent.of_free_run h
  rw [inv.live_eq]
  refine inv.wake.staffed_of_work (by simp [board, hl, mode]) (hw.imp_right fun ⟨p, hp, hr⟩ => ?_)
  refine total_pos_iff.mpr ⟨p.role, Multiset.mem_map_of_mem _ hp, ?_⟩
  rw [Pc.role_reserves, hr]
  exact Nat.one_pos

end

/-- Job 0 is in the FIFO and the worker has not started. -/
theorem staffed_while_running_sole : ∃ t, machine.Run Machine.free (init soleWorker fun _ => false) t ∧
    t.shared.globalQueue = [0] ∧ 1 ≤ t.shared.state.liveWorkers := by
  have hexec : (machine.exec Machine.free (init soleWorker fun _ => false)
      (call (Op.submit 0 0) :: turns 0 19 Outcome.ok)).map
        (fun t => (t.shared.state.lifecycle, t.shared.globalQueue)) =
      some (.running, [0]) := by
    decide
  obtain ⟨t, hrun, ht⟩ := machine.exec_reaches hexec
  obtain ⟨hl, hq⟩ := Prod.mk.inj ht
  exact ⟨t, hrun, hq, staffed_while_running hrun hl (Or.inl (by simp [hq]))⟩

end ThreadPools.Dynamic
