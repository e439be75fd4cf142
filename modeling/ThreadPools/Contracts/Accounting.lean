import ThreadPools.Dynamic.Quiescence
import ThreadPools.Fixed.Quiescence

/-! # Accounting and termination of both pools -/
namespace ThreadPools
open Interleaving
open Move (call)

/-- In both pools the counters are conserved in every reachable state and no assertion of
the accounting or of the headcounts can fail. -/
theorem accounting_conserved :
    (∀ config tickets (t : State Dynamic.Shared Dynamic.Pc),
      Dynamic.machine.Run Machine.free (Dynamic.init config tickets) t →
        (∀ p ∈ t.actors, ∀ cause, p ≠ .panicked cause) ∧
        Conserved t.shared.acct t.shared.history t.shared.offered (Dynamic.stored t.shared)
          ((t.actors : Multiset Dynamic.Pc).bind Dynamic.Pc.holdings)) ∧
    ∀ config (t : State Fixed.Shared Fixed.Pc), Fixed.machine.Run Machine.free (Fixed.init config) t →
        (∀ p ∈ t.actors, ∀ cause, p ≠ .panicked cause) ∧
        Conserved t.shared.acct t.shared.history t.shared.offered (Fixed.stored t.shared)
          ((t.actors : Multiset Fixed.Pc).bind Fixed.Pc.holdings) := by
  constructor
  · intro config tickets t hrun
    have inv := Dynamic.Consistent.of_free_run hrun
    exact ⟨fun p hp => inv.sound p (Multiset.mem_coe.mpr hp), inv.recorded.law.conserved⟩
  · intro config t hrun
    have inv := Fixed.Consistent.of_free_run hrun
    exact ⟨fun p hp => inv.sound p (Multiset.mem_coe.mpr hp), Law.conserved inv.recorded⟩

/-- Job 0 is in the middle of `claim_queued_job` in either pool. -/
theorem accounting_conserved_claiming :
    (∃ t, Dynamic.machine.Run Machine.free (Dynamic.init Dynamic.soleWorker fun _ => false) t ∧
      .worker (.claimRunning 0) ∈ t.actors ∧ t.shared.acct.count .submitted = 1 ∧
      Conserved t.shared.acct t.shared.history t.shared.offered (Dynamic.stored t.shared)
        ((t.actors : Multiset Dynamic.Pc).bind Dynamic.Pc.holdings)) ∧
    ∃ t, Fixed.machine.Run Machine.free (Fixed.init Fixed.soleWorker) t ∧
      .worker (.claimRunning 0) ∈ t.actors ∧ t.shared.acct.count .submitted = 1 ∧
      Conserved t.shared.acct t.shared.history t.shared.offered (Fixed.stored t.shared)
        ((t.actors : Multiset Fixed.Pc).bind Fixed.Pc.holdings) := by
  constructor
  · have hexec : (Dynamic.machine.exec Machine.free (Dynamic.init Dynamic.soleWorker fun _ => false)
        (call (Dynamic.Op.submit 0 0) :: (turns 0 19 Outcome.ok ++ turns 1 5 Outcome.ok))).map
        (fun t => (t.shared.acct.count .submitted, t.actors[1]?)) =
        some (1, some (Dynamic.Pc.worker (.claimRunning 0))) := by
      decide
    obtain ⟨t, hrun, ht⟩ := Dynamic.machine.exec_reaches hexec
    obtain ⟨hc, hp⟩ := Prod.mk.inj ht
    exact ⟨t, hrun, List.mem_of_getElem? hp, hc, (accounting_conserved.1 _ _ t hrun).2⟩
  · have hexec : (Fixed.machine.exec Machine.free (Fixed.init Fixed.soleWorker)
        (call (Fixed.Op.submit 0) :: (turns 1 11 Outcome.ok ++ turns 0 5 Outcome.ok))).map
        (fun t => (t.shared.acct.count .submitted, t.actors[0]?)) =
        some (1, some (Fixed.Pc.worker (.claimRunning 0))) := by
      decide
    obtain ⟨t, hrun, ht⟩ := Fixed.machine.exec_reaches hexec
    obtain ⟨hc, hp⟩ := Prod.mk.inj ht
    exact ⟨t, hrun, List.mem_of_getElem? hp, hc, (accounting_conserved.2 _ t hrun).2⟩

/-- In both pools, when `is_terminated_locked` answers `true` the pool has settled, it stays
so, every later evaluation answers `true` and the values that `lifecycle` returns never
decrease. -/
theorem termination_permanent :
    (∀ config tickets (t u : State Dynamic.Shared Dynamic.Pc),
      Dynamic.machine.Run Machine.free (Dynamic.init config tickets) t → Dynamic.machine.Run Machine.free t u →
        (∀ k, .idle .cancelling (.term k) ∈ t.actors → t.shared.acct.count .cancelling = 0 →
          Dynamic.Settled u.shared u.actors ∧ Dynamic.Answers u.shared) ∧
        u.shared.observed.Pairwise fun l l' => l.rank ≤ l'.rank) ∧
    ∀ config (t u : State Fixed.Shared Fixed.Pc),
      Fixed.machine.Run Machine.free (Fixed.init config) t → Fixed.machine.Run Machine.free t u →
        (∀ o, .idle .cancelling (.term o) ∈ t.actors → t.shared.acct.count .cancelling = 0 →
          Fixed.Settled u.shared u.actors ∧ Fixed.Answers u.shared) ∧
        u.shared.observed.Pairwise fun l l' => l.rank ≤ l'.rank := by
  constructor
  · intro config tickets t u hrun hu
    exact ⟨fun k hm hz => Dynamic.terminated_for_good hrun hm hz hu, Dynamic.lifecycle_monotone (hrun.trans hu)⟩
  · intro config t u hrun hu
    exact ⟨fun o hm hz => Fixed.settled_for_good hrun hm hz hu, Fixed.observed_sorted (hrun.trans hu)⟩

/-- A drained pool of one worker, at the last load of a call of `lifecycle` and after it. -/
theorem termination_permanent_drained :
    (∃ t u, Dynamic.machine.Run Machine.free (Dynamic.init Dynamic.soleWorker fun _ => false) t ∧
      Dynamic.machine.Run Machine.free t u ∧ u.shared.observed = [.terminated] ∧
      Dynamic.Settled u.shared u.actors ∧ Dynamic.Answers u.shared) ∧
    ∃ t u, Fixed.machine.Run Machine.free (Fixed.init Fixed.soleWorker) t ∧ Fixed.machine.Run Machine.free t u ∧
      u.shared.observed = [.terminated] ∧ Fixed.Settled u.shared u.actors ∧ Fixed.Answers u.shared := by
  constructor
  · have hexec : (Dynamic.machine.exec Machine.free (Dynamic.init Dynamic.soleWorker fun _ => false)
        (Dynamic.drainedSchedule ++ turns 1 18 Outcome.ok ++
          call Dynamic.Op.lifecycle :: turns 3 5 Outcome.ok)).bind
        (fun t => (Dynamic.machine.exec Machine.free t (turns 3 2 Outcome.ok)).map fun u =>
          (t.actors[3]?, t.shared.acct.count .cancelling, u.shared.observed)) =
        some (some (Dynamic.Pc.idle .cancelling (.term (.observer .lifecycle))), 0, [.terminated]) := by
      decide
    obtain ⟨t, ht, hexec⟩ := Option.bind_eq_some_iff.mp hexec
    obtain ⟨u, hu, hread⟩ := Dynamic.machine.exec_reaches hexec
    simp only [Prod.mk.injEq] at hread
    obtain ⟨hp, hz, ho⟩ := hread
    have hrun := Dynamic.machine.exec_run ht
    exact ⟨t, u, hrun, hu, ho, (termination_permanent.1 _ _ t u hrun hu).1 _ (List.mem_of_getElem? hp) hz⟩
  · have hexec : (Fixed.machine.exec Machine.free (Fixed.init Fixed.soleWorker)
        (Fixed.drainedSchedule ++ call Fixed.Op.lifecycle :: turns 3 5 Outcome.ok)).bind
        (fun t => (Fixed.machine.exec Machine.free t (turns 3 2 Outcome.ok)).map fun u =>
          (t.actors[3]?, t.shared.acct.count .cancelling, u.shared.observed)) =
        some (some (Fixed.Pc.idle .cancelling (.term .lifecycle)), 0, [.terminated]) := by
      decide
    obtain ⟨t, ht, hexec⟩ := Option.bind_eq_some_iff.mp hexec
    obtain ⟨u, hu, hread⟩ := Fixed.machine.exec_reaches hexec
    simp only [Prod.mk.injEq] at hread
    obtain ⟨hp, hz, ho⟩ := hread
    have hrun := Fixed.machine.exec_run ht
    exact ⟨t, u, hrun, hu, ho, (termination_permanent.2 _ t u hrun hu).1 _ (List.mem_of_getElem? hp) hz⟩

end ThreadPools
