import ThreadPools.Dynamic.Rejection
import ThreadPools.Fixed.Rejection

/-! # Rejected submissions of both pools -/
namespace ThreadPools
open Interleaving
open Move (call)

/-- In both pools a submission that returns an error has added nothing to any counter and nothing to the gate, its
job was never in the queue, at most its acceptance callback was invoked, and no ticket will ever win the job. The
number of workers is unchanged, except that the dynamic pool keeps a worker that was registered for a job whose
acceptance callback panicked. -/
theorem failed_submission_leaves_no_trace :
    (∀ config tickets (s t : State Dynamic.Shared Dynamic.Pc) (i : ℕ) (j : JobId) (error : PoolJobSubmissionError),
      Dynamic.machine.Run Machine.free (Dynamic.init config tickets) s → s.actors[i]? = some (.submit j .enter) →
      Dynamic.machine.Run Machine.free s t → t.actors[i]? = some (.submit j (.returned (some error))) →
        (∀ d x, Dynamic.machine.Tally Machine.free i (fun sh => (sh.acct.count d : ℤ)) s t x → x = 0) ∧
        (∀ x, Dynamic.machine.Tally Machine.free i (fun sh => (sh.acct.inflightCount : ℤ)) s t x → x = 0) ∧
        (∀ x, Dynamic.machine.Tally Machine.free i (fun sh => (sh.state.liveWorkers : ℤ)) s t x →
          x = 0 ∨ x = 1 ∧ error = .acceptancePanicked) ∧
        (∀ u, Dynamic.machine.Run Machine.free (Dynamic.init config tickets) u →
          Dynamic.machine.Run Machine.free u t → j ∉ u.shared.globalQueue) ∧
        ∀ u, Dynamic.machine.Run Machine.free t u → Dynamic.Traceless j error u.shared) ∧
    ∀ config (s t : State Fixed.Shared Fixed.Pc) (i : ℕ) (j : JobId) (error : PoolJobSubmissionError),
      Fixed.machine.Run Machine.free (Fixed.init config) s → s.actors[i]? = some (.submit j .enter) →
      Fixed.machine.Run Machine.free s t → t.actors[i]? = some (.submit j (.returned (some error))) →
        (∀ d x, Fixed.machine.Tally Machine.free i (fun sh => (sh.acct.count d : ℤ)) s t x → x = 0) ∧
        (∀ x, Fixed.machine.Tally Machine.free i (fun sh => (sh.acct.inflightCount : ℤ)) s t x → x = 0) ∧
        (∀ x, Fixed.machine.Tally Machine.free i (fun sh => (sh.state.liveWorkers : ℤ)) s t x → x = 0) ∧
        (∀ u, Fixed.machine.Run Machine.free (Fixed.init config) u →
          Fixed.machine.Run Machine.free u t → j ∉ u.shared.globalQueue) ∧
        ∀ u, Fixed.machine.Run Machine.free t u → Fixed.Traceless j error u.shared := by
  constructor
  · intro config tickets s t i j error hs hi hst ht
    refine ⟨fun d x h => Dynamic.rejected_count hs hi ht h, fun x h => Dynamic.rejected_inflight hs hi ht h,
      fun x h => Dynamic.rejected_live hs hi ht h, fun u hu hut => ?_, fun u htu => ?_⟩
    · exact Dynamic.never_queued hu hut (List.mem_of_getElem? ht)
    · have hstay := Dynamic.returned_stays htu ht
      exact Dynamic.traceless_of_returned ((hs.trans hst).trans htu) (List.mem_of_getElem? hstay)
  · intro config s t i j error hs hi hst ht
    refine ⟨fun d x h => Fixed.rejected_count hs hi ht h, fun x h => Fixed.rejected_inflight hs hi ht h,
      fun x h => Fixed.submission_live hs hi h, fun u hu hut => ?_, fun u htu => ?_⟩
    · exact Fixed.never_queued hu hut (List.mem_of_getElem? ht)
    · have hstay := Fixed.returned_stays htu ht
      exact Fixed.traceless_of_returned ((hs.trans hst).trans htu) (List.mem_of_getElem? hstay)

/-- In the dynamic pool the first worker cannot be spawned; in the fixed pool the acceptance callback panics. -/
theorem failed_submission_leaves_no_trace_spawn :
    (∃ s t, Dynamic.machine.Run Machine.free (Dynamic.init Dynamic.soleWorker fun _ => true) s ∧
      t.actors[0]? = some (Dynamic.Pc.submit 0 (.returned (some (.rejected .workerSpawnFailed)))) ∧
      Dynamic.machine.Tally Machine.free 0 (fun sh => (sh.state.liveWorkers : ℤ)) s t 0 ∧
      Dynamic.Traceless 0 (.rejected .workerSpawnFailed) t.shared) ∧
    ∃ s t, Fixed.machine.Run Machine.free (Fixed.init Fixed.soleWorker) s ∧
      t.actors[1]? = some (Fixed.Pc.submit 0 (.returned (some .acceptancePanicked))) ∧
      Fixed.machine.Tally Machine.free 1 (fun sh => (sh.acct.count .queueSlot : ℤ)) s t 0 ∧
      Fixed.Traceless 0 .acceptancePanicked t.shared := by
  constructor
  · have hexec : (Dynamic.machine.exec Machine.free (Dynamic.init Dynamic.soleWorker fun _ => true)
        [call (Dynamic.Op.submit 0 0)]).bind (fun s => (Dynamic.machine.exec Machine.free s
          (turns 0 3 Outcome.ok ++ turns 0 9 Outcome.err)).map fun t => (s.actors[0]?, t.actors[0]?)) =
        some (some (Dynamic.Pc.submit 0 .enter),
          some (Dynamic.Pc.submit 0 (.returned (some (.rejected .workerSpawnFailed))))) := by
      decide
    obtain ⟨s, hs, hexec⟩ := Option.bind_eq_some_iff.mp hexec
    obtain ⟨t, hst, hread⟩ := Dynamic.machine.exec_reaches hexec
    obtain ⟨hi, ht⟩ := Prod.mk.inj hread
    have hs := Dynamic.machine.exec_run hs
    obtain ⟨-, -, hlive, -, hrest⟩ := failed_submission_leaves_no_trace.1 _ _ s t 0 0 _ hs hi hst ht
    obtain ⟨x, hx⟩ := hst.exists_tally 0 fun sh => (sh.state.liveWorkers : ℤ)
    rcases hlive x hx with rfl | ⟨-, he⟩
    · exact ⟨s, t, hs, ht, hx, hrest t .refl⟩
    · cases he
  · have hexec : (Fixed.machine.exec Machine.free (Fixed.init Fixed.soleWorker) [call (Fixed.Op.submit 0)]).bind
        (fun s => (Fixed.machine.exec Machine.free s (turns 1 3 Outcome.ok ++ turns 1 7 Outcome.err)).map fun t =>
          (s.actors[1]?, t.actors[1]?)) =
        some (some (Fixed.Pc.submit 0 .enter), some (Fixed.Pc.submit 0 (.returned (some .acceptancePanicked)))) := by
      decide
    obtain ⟨s, hs, hexec⟩ := Option.bind_eq_some_iff.mp hexec
    obtain ⟨t, hst, hread⟩ := Fixed.machine.exec_reaches hexec
    obtain ⟨hi, ht⟩ := Prod.mk.inj hread
    have hs := Fixed.machine.exec_run hs
    obtain ⟨hcount, -, -, -, hrest⟩ := failed_submission_leaves_no_trace.2 _ s t 1 0 _ hs hi hst ht
    obtain ⟨x, hx⟩ := hst.exists_tally 1 fun sh => (sh.acct.count .queueSlot : ℤ)
    obtain rfl := hcount _ x hx
    exact ⟨s, t, hs, ht, hx, hrest t .refl⟩

end ThreadPools
