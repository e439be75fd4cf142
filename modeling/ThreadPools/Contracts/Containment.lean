import ThreadPools.Containment.Harmless

/-! # Containment of user panics in both pools -/
namespace ThreadPools
open Unwinding
open ThreadPools.Dynamic (ThreadId)

namespace Containment

/-- A thread that runs user code returns, and has finished what it began, exactly if every
payload that it destroys outside of a `catch_unwind` can be destroyed and no two destructors
unwind together. -/
theorem panics_contained_iff {P : Type} (drops : P → Behaviour P) :
    (∀ hooks jobs exits, Contained (ThreadPoolWorker.run drops hooks jobs exits) ↔
      WorkerHarmless drops hooks (jobs.map (·, false)) exits) ∧
    (∀ hooks jobs exits, Contained (FixedWorker.run drops hooks jobs exits) ↔
      WorkerHarmless drops hooks jobs exits) ∧
    (∀ owner admission job cancelRequested,
      SubmitContained (admission.reserves && job.acceptPanics) job.ticketed
        (ThreadPoolInner.submit drops owner admission job cancelRequested) ↔
        SubmitHarmless drops job cancelRequested admission) ∧
    (∀ admission job, SubmitContained (admission.reserves && job.acceptPanics) false
      (FixedThreadPoolInner.submit drops admission job) ↔ SubmitHarmless drops job false admission) ∧
    (∀ jobs, Contained (stop drops jobs) ↔ ∀ job ∈ jobs, Defused drops (job.cancelResidue drops)) ∧
    ∀ entry, Contained (ThreadPoolInner.cancelQueuedEntry drops entry) ↔
      ∀ job ∈ entry, Defused drops (job.cancelResidue drops) := by
  refine ⟨fun hooks jobs exits => ?_, fun hooks jobs exits => ?_, fun owner admission job cancelRequested => ?_,
    fun admission job => ?_, fun jobs => ?_, fun entry => ?_⟩
  · exact worker_contained_iff ThreadPoolWorker.loop_iff ThreadPoolWorker.loop_contained
  · exact worker_contained_iff FixedWorker.loop_iff FixedWorker.loop_contained
  · exact submit_contained_iff
  · exact fixed_submit_contained_iff
  · exact stop_contained_iff
  · exact cancelQueuedEntry_contained_iff

/-- The payload `true` unwinds with `false` when it is destroyed, the payload `false` returns. -/
def bomb (p : Bool) : Behaviour Bool := if p then some false else none

def returning : Callback Bool := ⟨none, none⟩

def plainHooks : ThreadPoolHooks Bool := ⟨none, none, none, none⟩

/-- A hook, an acceptance or the destructor of unused captures unwinds with the payload `true`:
a worker dies between claim and finish, a submission neither rolls back nor rejects, `stop` and
`cancel_queued` leave a cancellation begun. Two unwinding destructors abort a rejection. -/
theorem panics_escape :
    ThreadPoolWorker.run bomb { plainHooks with beforeTask := some fun _ => some true }
        [⟨.custom returning returning returning, false⟩] true = ⟨[.claimQueuedJob], .unwinding false⟩ ∧
      FixedWorker.run bomb plainHooks [(⟨.custom returning returning ⟨none, some true⟩, false⟩, false)] true =
        ⟨[.claimQueuedJob], .unwinding false⟩ ∧
      ThreadPoolInner.submit bomb 0 .reserved ⟨.custom ⟨some true, none⟩ returning returning, true⟩ false =
        ⟨[.reserveSlot, .setEntry (.accepting 0 false), .leave], .unwinding false⟩ ∧
      stop bomb [⟨.custom returning ⟨none, some true⟩ returning, false⟩] =
        ⟨[.beginCancelQueuedJob], .unwinding false⟩ ∧
      ThreadPoolInner.cancelQueuedEntry bomb (some ⟨.custom returning ⟨none, some true⟩ returning, true⟩) =
        ⟨[.beginCancelQueuedJob], .unwinding false⟩ ∧
      FixedThreadPoolInner.submit bomb .closed ⟨.custom returning ⟨none, some false⟩ ⟨none, some false⟩, false⟩ =
        ⟨[], .aborted⟩ := by
  decide

end Containment

end ThreadPools
