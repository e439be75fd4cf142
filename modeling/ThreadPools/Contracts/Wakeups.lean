import ThreadPools.Contracts.Accounting
import ThreadPools.Dynamic.Calls

/-! # Wake-ups of both pools -/
namespace ThreadPools
open Interleaving
open Move (call)

namespace Dynamic
variable {config : ThreadPoolConfig} {tickets : JobId → Bool} {t : State Shared Pc}

/-- A pool that is running has an awake worker as long as a job is queued and no submitter is
on its way to wake one. -/
theorem awake_running (h : machine.Run Machine.free (init config tickets) t)
    (hl : t.shared.state.lifecycle = .running) (hq : t.shared.globalQueue ≠ [])
    (hw : ∀ p ∈ t.actors, p.waking = false) :
    ∃ p ∈ t.actors, p.thread = true ∧ p.asleep t.shared.epoch = false := by
  obtain ⟨j, hj⟩ := List.exists_mem_of_ne_nil _ hq
  by_contra hn
  refine (Consistent.of_free_run h).awake hj (Or.inl hl) (fun p hp ht => ?_)
    (fun q hm => hw _ (Multiset.mem_coe.mp hm)) fun p hp => ?_
  · by_contra ha
    exact hn ⟨p, Multiset.mem_coe.mp hp, ht, Bool.eq_false_iff.mpr ha⟩
  · exact Pc.broadcasts_of_waking (hw p (Multiset.mem_coe.mp hp))

/-- So has a pool that is shutting down, for a job whose submission has returned. -/
theorem awake_draining {j : JobId}
    (h : machine.Run CoveredAtPark (init config tickets) t)
    (hl : t.shared.state.lifecycle = .shuttingDown) (hj : j ∈ t.shared.globalQueue)
    (hr : .submit j (.returned none) ∈ t.actors) (hlive : 0 < t.shared.state.liveWorkers)
    (hb : ∀ p ∈ t.actors, p.broadcasts = false) :
    ∃ p ∈ t.actors, p.thread = true ∧ p.asleep t.shared.epoch = false := by
  have inv : Consistent False True t.shared t.actors :=
    .of_run (h.weaken fun _ _ _ _ hok => ⟨False.elim, fun _ => hok⟩)
  by_contra hn
  refine inv.awake hj (Or.inr ⟨hl, trivial, hlive⟩) (fun p hp ht => ?_) (fun q hm => ?_)
    fun p hp => hb p (Multiset.mem_coe.mp hp)
  · by_contra ha
    exact hn ⟨p, Multiset.mem_coe.mp hp, ht, Bool.eq_false_iff.mpr ha⟩
  · -- The submission of `j` has one call, and that call has returned.
    obtain heq := submitter_unique h (Multiset.mem_coe.mp hm) hr rfl rfl
    cases heq
    rfl

end Dynamic

namespace Fixed
variable {config : FixedThreadPoolConfig} {t : State Shared Pc}

theorem awake_running (h : machine.Run Machine.free (init config) t)
    (hl : t.shared.state.lifecycle = .running) (hq : t.shared.globalQueue ≠ [])
    (hw : ∀ p ∈ t.actors, p.waking = false) :
    ∃ p ∈ t.actors, p.live = true ∧ p.asleep t.shared.epoch = false := by
  obtain ⟨j, hj⟩ := List.exists_mem_of_ne_nil _ hq
  by_contra hn
  refine (Consistent.of_free_run h).awake hj (Or.inl hl) (fun p hp ht => ?_)
    (fun q hm => hw _ (Multiset.mem_coe.mp hm)) fun p hp => ?_
  · by_contra ha
    exact hn ⟨p, Multiset.mem_coe.mp hp, ht, Bool.eq_false_iff.mpr ha⟩
  · exact Pc.broadcasts_of_waking (hw p (Multiset.mem_coe.mp hp))

theorem awake_draining {j : JobId} (h : machine.Run CoveredAtPark (init config) t)
    (hl : t.shared.state.lifecycle = .shuttingDown) (hj : j ∈ t.shared.globalQueue)
    (hr : .submit j (.returned none) ∈ t.actors) (hlive : 0 < t.shared.state.liveWorkers)
    (hb : ∀ p ∈ t.actors, p.broadcasts = false) :
    ∃ p ∈ t.actors, p.live = true ∧ p.asleep t.shared.epoch = false := by
  have inv : Consistent False True t.shared t.actors :=
    .of_run (h.weaken fun _ _ _ _ hok => ⟨False.elim, fun _ => hok⟩)
  by_contra hn
  refine inv.awake hj (Or.inr ⟨hl, trivial, hlive⟩) (fun p hp ht => ?_) (fun q hm => ?_)
    fun p hp => hb p (Multiset.mem_coe.mp hp)
  · by_contra ha
    exact hn ⟨p, Multiset.mem_coe.mp hp, ht, Bool.eq_false_iff.mpr ha⟩
  · obtain heq := submitter_unique h (Multiset.mem_coe.mp hm) hr
    cases heq
    rfl

end Fixed

/-- While either pool is running and a job is queued, either a submitter is between its push
and the end of its notification or some registered worker is awake. -/
theorem running_pool_stays_awake :
    (∀ config tickets (t : State Dynamic.Shared Dynamic.Pc),
      Dynamic.machine.Run Machine.free (Dynamic.init config tickets) t →
        t.shared.state.lifecycle = .running → t.shared.globalQueue ≠ [] →
        (∃ p ∈ t.actors, p.waking = true) ∨
          ∃ p ∈ t.actors, p.thread = true ∧ p.asleep t.shared.epoch = false) ∧
    ∀ config (t : State Fixed.Shared Fixed.Pc), Fixed.machine.Run Machine.free (Fixed.init config) t →
        t.shared.state.lifecycle = .running → t.shared.globalQueue ≠ [] →
        (∃ p ∈ t.actors, p.waking = true) ∨
          ∃ p ∈ t.actors, p.live = true ∧ p.asleep t.shared.epoch = false := by
  constructor
  · intro config tickets t h hl hq
    by_cases hw : ∃ p ∈ t.actors, p.waking = true
    · exact Or.inl hw
    · refine Or.inr (Dynamic.awake_running h hl hq fun p hp => ?_)
      exact Bool.eq_false_iff.mpr fun ht => hw ⟨p, hp, ht⟩
  · intro config t h hl hq
    by_cases hw : ∃ p ∈ t.actors, p.waking = true
    · exact Or.inl hw
    · refine Or.inr (Fixed.awake_running h hl hq fun p hp => ?_)
      exact Bool.eq_false_iff.mpr fun ht => hw ⟨p, hp, ht⟩

/-- The parked worker has been notified of the job that the last submission has pushed. -/
theorem running_pool_stays_awake_notified :
    (∃ t, Dynamic.machine.Run Machine.free (Dynamic.init Dynamic.soleWorker fun _ => false) t ∧
      t.shared.globalQueue = [1] ∧ t.actors = [.submit 0 (.returned none), .worker (.parked false 1),
        .submit 1 (.returned none)] ∧ ∃ p ∈ t.actors, p.thread = true ∧ p.asleep t.shared.epoch = false) ∧
    ∃ t, Fixed.machine.Run Machine.free (Fixed.init Fixed.soleWorker) t ∧
      t.shared.globalQueue = [0] ∧ t.actors = [.worker (.parked 0), .submit 0 (.returned none)] ∧
      ∃ p ∈ t.actors, p.live = true ∧ p.asleep t.shared.epoch = false := by
  constructor
  · have hexec : (Dynamic.machine.exec Machine.free (Dynamic.init Dynamic.soleWorker fun _ => false)
        (call (Dynamic.Op.submit 0 0) :: (turns 0 19 Outcome.ok ++ turns 1 32 Outcome.ok) ++
          call (Dynamic.Op.submit 1 1) :: turns 2 19 Outcome.ok)).map
        (fun t => (t.shared.state.lifecycle, t.shared.globalQueue, t.actors)) =
        some (.running, [1], [.submit 0 (.returned none), .worker (.parked false 1), .submit 1 (.returned none)]) := by
      decide
    obtain ⟨t, hrun, ht⟩ := Dynamic.machine.exec_reaches hexec
    simp only [Prod.mk.injEq] at ht
    obtain ⟨hl, hq, hp⟩ := ht
    rcases running_pool_stays_awake.1 _ _ t hrun hl (by simp [hq]) with ⟨p, hm, hw⟩ | h
    · simp only [hp, List.mem_cons, List.not_mem_nil, or_false] at hm
      rcases hm with rfl | rfl | rfl <;> cases hw
    · exact ⟨t, hrun, hq, hp, h⟩
  · have hexec : (Fixed.machine.exec Machine.free (Fixed.init Fixed.soleWorker)
        (turns 0 11 Outcome.ok ++ call (Fixed.Op.submit 0) :: turns 1 13 Outcome.ok)).map
        (fun t => (t.shared.state.lifecycle, t.shared.globalQueue, t.actors)) =
        some (.running, [0], [.worker (.parked 0), .submit 0 (.returned none)]) := by
      decide
    obtain ⟨t, hrun, ht⟩ := Fixed.machine.exec_reaches hexec
    simp only [Prod.mk.injEq] at ht
    obtain ⟨hl, hq, hp⟩ := ht
    rcases running_pool_stays_awake.2 _ t hrun hl (by simp [hq]) with ⟨p, hm, hw⟩ | h
    · simp only [hp, List.mem_cons, List.not_mem_nil, or_false] at hm
      rcases hm with rfl | rfl <;> cases hw
    · exact ⟨t, hrun, hq, hp, h⟩

/-- The same while either pool shuts down, for a job whose submission has returned, in a run
in which no worker parks over a wake token that nobody is about to follow up. -/
theorem draining_pool_stays_awake (j : JobId) :
    (∀ config tickets (t : State Dynamic.Shared Dynamic.Pc),
      Dynamic.machine.Run Dynamic.CoveredAtPark (Dynamic.init config tickets) t →
        t.shared.state.lifecycle = .shuttingDown → j ∈ t.shared.globalQueue →
        .submit j (.returned none) ∈ t.actors → 0 < t.shared.state.liveWorkers →
        (∃ p ∈ t.actors, p.broadcasts = true) ∨
          ∃ p ∈ t.actors, p.thread = true ∧ p.asleep t.shared.epoch = false) ∧
    ∀ config (t : State Fixed.Shared Fixed.Pc),
      Fixed.machine.Run Fixed.CoveredAtPark (Fixed.init config) t →
        t.shared.state.lifecycle = .shuttingDown → j ∈ t.shared.globalQueue →
        .submit j (.returned none) ∈ t.actors → 0 < t.shared.state.liveWorkers →
        (∃ p ∈ t.actors, p.broadcasts = true) ∨
          ∃ p ∈ t.actors, p.live = true ∧ p.asleep t.shared.epoch = false := by
  constructor
  · intro config tickets t h hl hj hr hlive
    by_cases hb : ∃ p ∈ t.actors, p.broadcasts = true
    · exact Or.inl hb
    · refine Or.inr (Dynamic.awake_draining h hl hj hr hlive fun p hp => ?_)
      exact Bool.eq_false_iff.mpr fun ht => hb ⟨p, hp, ht⟩
  · intro config t h hl hj hr hlive
    by_cases hb : ∃ p ∈ t.actors, p.broadcasts = true
    · exact Or.inl hb
    · refine Or.inr (Fixed.awake_draining h hl hj hr hlive fun p hp => ?_)
      exact Bool.eq_false_iff.mpr fun ht => hb ⟨p, hp, ht⟩

/-- Submissions 1 and 2 are in acceptance when the pool is shut down; the worker runs job 0
and parks, and no wake token is left. Submission 2 goes on to its end and notifies the worker. -/
def Dynamic.coveredSchedule : List (Move Outcome Dynamic.Op) :=
  call (Dynamic.Op.submit 0 0) :: turns 0 19 Outcome.ok ++ call (Dynamic.Op.submit 1 1) :: turns 2 7 Outcome.ok ++
    call (Dynamic.Op.submit 2 2) :: turns 3 7 Outcome.ok ++
    call Dynamic.Op.shutdown :: turns 4 5 Outcome.ok ++ turns 1 26 Outcome.ok ++ turns 3 10 Outcome.ok

def Fixed.coveredSchedule : List (Move Outcome Fixed.Op) :=
  call (Fixed.Op.submit 0) :: turns 1 11 Outcome.ok ++ call (Fixed.Op.submit 1) :: turns 2 3 Outcome.ok ++
    call (Fixed.Op.submit 2) :: turns 3 3 Outcome.ok ++
    call Fixed.Op.shutdown :: turns 4 2 Outcome.ok ++ turns 0 22 Outcome.ok ++ turns 3 8 Outcome.ok

theorem draining_pool_stays_awake_notified :
    (∃ t, Dynamic.machine.Run Dynamic.CoveredAtPark (Dynamic.init Dynamic.soleWorker fun _ => false) t ∧
      t.shared.state.lifecycle = .shuttingDown ∧ t.shared.globalQueue = [2] ∧
      t.actors = [.submit 0 (.returned none), .worker (.drainParked 1), .submit 1 .accepting,
        .submit 2 (.returned none), .shutdown .returned] ∧
      ∃ p ∈ t.actors, p.thread = true ∧ p.asleep t.shared.epoch = false) ∧
    ∃ t, Fixed.machine.Run Fixed.CoveredAtPark (Fixed.init Fixed.soleWorker) t ∧
      t.shared.state.lifecycle = .shuttingDown ∧ t.shared.globalQueue = [2] ∧
      t.actors = [.worker (.drainParked 1), .submit 0 (.returned none), .submit 1 .accepting,
        .submit 2 (.returned none), .shutdown .returned] ∧
      ∃ p ∈ t.actors, p.live = true ∧ p.asleep t.shared.epoch = false := by
  constructor
  · have hexec : (Dynamic.machine.exec Dynamic.CoveredAtPark (Dynamic.init Dynamic.soleWorker fun _ => false)
        Dynamic.coveredSchedule).map (fun t => (t.shared.state.lifecycle, t.shared.globalQueue,
          t.shared.state.liveWorkers, t.actors)) =
        some (.shuttingDown, [2], 1, [.submit 0 (.returned none), .worker (.drainParked 1),
          .submit 1 .accepting, .submit 2 (.returned none), .shutdown .returned]) := by
      decide
    obtain ⟨t, hrun, ht⟩ := Dynamic.machine.exec_reaches hexec
    simp only [Prod.mk.injEq] at ht
    obtain ⟨hl, hq, hlive, hp⟩ := ht
    have hawake := (draining_pool_stays_awake 2).1 _ _ t hrun hl (by simp [hq]) (by simp [hp]) (by omega)
    rcases hawake with ⟨p, hm, hb⟩ | h
    · simp only [hp, List.mem_cons, List.not_mem_nil, or_false] at hm
      rcases hm with rfl | rfl | rfl | rfl | rfl <;> cases hb
    · exact ⟨t, hrun, hl, hq, hp, h⟩
  · have hexec : (Fixed.machine.exec Fixed.CoveredAtPark (Fixed.init Fixed.soleWorker) Fixed.coveredSchedule).map
        (fun t => (t.shared.state.lifecycle, t.shared.globalQueue, t.shared.state.liveWorkers, t.actors)) =
        some (.shuttingDown, [2], 1, [.worker (.drainParked 1), .submit 0 (.returned none),
          .submit 1 .accepting, .submit 2 (.returned none), .shutdown .returned]) := by
      decide
    obtain ⟨t, hrun, ht⟩ := Fixed.machine.exec_reaches hexec
    simp only [Prod.mk.injEq] at ht
    obtain ⟨hl, hq, hlive, hp⟩ := ht
    have hawake := (draining_pool_stays_awake 2).2 _ t hrun hl (by simp [hq]) (by simp [hp]) (by omega)
    rcases hawake with ⟨p, hm, hb⟩ | h
    · simp only [hp, List.mem_cons, List.not_mem_nil, or_false] at hm
      rcases hm with rfl | rfl | rfl | rfl | rfl <;> cases hb
    · exact ⟨t, hrun, hl, hq, hp, h⟩

/-- The parked worker wakes for another reason between the idle count that submitter 0 reads
and the token that it raises, so the token is left over. Submissions 1 and 2 are in acceptance
when the pool is shut down; the worker runs job 0 and parks. Submission 2 goes on to its end
and finds the idle worker covered by the token. -/
def Dynamic.leftoverSchedule : List (Move Outcome Dynamic.Op) :=
  call (Dynamic.Op.submit 0 0) :: (turns 0 9 Outcome.ok ++ turns 1 12 Outcome.ok ++
      turns 0 7 Outcome.ok ++ turns 1 4 Outcome.ok ++ turns 0 5 Outcome.ok) ++
    call (Dynamic.Op.submit 1 1) :: turns 2 7 Outcome.ok ++
    call (Dynamic.Op.submit 2 2) :: turns 3 7 Outcome.ok ++
    call Dynamic.Op.shutdown :: turns 4 5 Outcome.ok ++ turns 1 25 Outcome.ok ++ turns 3 9 Outcome.ok

def Fixed.leftoverSchedule : List (Move Outcome Fixed.Op) :=
  call (Fixed.Op.submit 0) :: (turns 1 3 Outcome.ok ++ turns 0 10 Outcome.ok ++
      turns 1 5 Outcome.ok ++ turns 0 7 Outcome.ok ++ turns 1 5 Outcome.ok) ++
    call (Fixed.Op.submit 1) :: turns 2 3 Outcome.ok ++ call (Fixed.Op.submit 2) :: turns 3 3 Outcome.ok ++
    call Fixed.Op.shutdown :: turns 4 2 Outcome.ok ++ turns 0 21 Outcome.ok ++ turns 3 7 Outcome.ok

/-- Job 2 waits behind submission 1 while the only worker is parked. -/
theorem draining_pool_sleeps :
    (∃ t, Dynamic.machine.Run Machine.free (Dynamic.init Dynamic.soleWorker fun _ => false) t ∧
      t.shared.state.lifecycle = .shuttingDown ∧ t.shared.globalQueue = [2] ∧
      t.shared.state.liveWorkers = 1 ∧ t.shared.epoch = 2 ∧
      t.actors = [.submit 0 (.returned none), .worker (.drainParked 2), .submit 1 .accepting,
        .submit 2 (.returned none), .shutdown .returned]) ∧
    ∃ t, Fixed.machine.Run Machine.free (Fixed.init Fixed.soleWorker) t ∧
      t.shared.state.lifecycle = .shuttingDown ∧ t.shared.globalQueue = [2] ∧
      t.shared.state.liveWorkers = 1 ∧ t.shared.epoch = 2 ∧
      t.actors = [.worker (.drainParked 2), .submit 0 (.returned none), .submit 1 .accepting,
        .submit 2 (.returned none), .shutdown .returned] := by
  constructor
  · have hexec : (Dynamic.machine.exec Machine.free (Dynamic.init Dynamic.soleWorker fun _ => false)
        Dynamic.leftoverSchedule).map (fun t => (t.shared.state.lifecycle, t.shared.globalQueue,
          t.shared.state.liveWorkers, t.shared.epoch, t.actors)) =
        some (.shuttingDown, [2], 1, 2, [.submit 0 (.returned none), .worker (.drainParked 2),
          .submit 1 .accepting, .submit 2 (.returned none), .shutdown .returned]) := by
      decide
    obtain ⟨t, hrun, ht⟩ := Dynamic.machine.exec_reaches hexec
    simp only [Prod.mk.injEq] at ht
    exact ⟨t, hrun, ht⟩
  · have hexec : (Fixed.machine.exec Machine.free (Fixed.init Fixed.soleWorker) Fixed.leftoverSchedule).map
        (fun t => (t.shared.state.lifecycle, t.shared.globalQueue, t.shared.state.liveWorkers,
          t.shared.epoch, t.actors)) =
        some (.shuttingDown, [2], 1, 2, [.worker (.drainParked 2), .submit 0 (.returned none),
          .submit 1 .accepting, .submit 2 (.returned none), .shutdown .returned]) := by
      decide
    obtain ⟨t, hrun, ht⟩ := Fixed.machine.exec_reaches hexec
    simp only [Prod.mk.injEq] at ht
    exact ⟨t, hrun, ht⟩

end ThreadPools
