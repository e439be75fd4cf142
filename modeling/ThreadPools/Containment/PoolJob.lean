import ThreadPools.Unwinding.Code
import ThreadPools.Dynamic.State

/-! # Jobs whose callbacks and destructors may unwind

Calling a callback consumes its captures; a callback that is not called is dropped with its
captures. Payloads are of an arbitrary type, with `drops` as their destructor.
-/
namespace ThreadPools.Containment
open Unwinding Unwinding.Code
open ThreadPools.Dynamic (QueuedJobState ThreadId)

variable {P : Type} {drops : P → Behaviour P}

/-- The accounting operations of a thread and the states it gives to a queue entry. -/
inductive Event where
  | claimQueuedJob | finishRunningJob
  | beginCancelQueuedJob | finishCancelledJob
  | reserveSlot | rollbackReservedSlot | publishAcceptedJob
  | setEntry (s : QueuedJobState)
  | leave | finishWorkerExit
  deriving DecidableEq

structure Callback (P : Type) where
  call : Behaviour P
  captures : Behaviour P

/-- `detached` stands for the closure that `PoolJob::detached` makes around a task: `result` is
the destructor of what the task returns. The endpoint of a `completable` job is foreign code. -/
inductive PoolJobInner (P : Type) where
  | detached (run result captures : Behaviour P)
  | completable (accept run cancel completion captures : Behaviour P)
  | custom (accept run cancel : Callback P)

structure PoolJob (P : Type) where
  inner : PoolJobInner P
  ticketed : Bool

namespace PoolJob

/-- The destructors of a job in the order of its fields. The acceptance callback is gone once
it has been called. -/
def captures (job : PoolJob P) (accepted : Bool) : List (Behaviour P) :=
  match job.inner with
  | .detached _ _ captures => [captures]
  | .completable _ _ _ completion captures => [captures, completion]
  | .custom accept run cancel =>
    if accepted then [run.captures, cancel.captures] else [accept.captures, run.captures, cancel.captures]

variable (drops) (job : PoolJob P)

/-- `CustomPoolTask::accept` destroys the payload in the closure of `map_err`. -/
def accept : Code Event P (Except Unit Unit) :=
  match job.inner with
  | .detached _ _ _ => pure (.ok ())
  | .completable accept _ _ _ _ => do
    call accept
    return .ok ()
  | .custom accept _ _ => do
    match ← catchUnwind (call accept.call) with
    | .ok () => return .ok ()
    | .error p =>
      call (drops p)
      return .error ()

def run : Code Event P Unit :=
  match job.inner with
  | .detached run result captures =>
    inScope (do
      match ← catchUnwind (call run) with
      | .ok () => call result
      | .error p => call (drops p)) (call captures)
  | .completable _ run _ _ _ => call run
  | .custom _ run cancel => inScope (ignore drops (call run.call)) (call cancel.captures)

/-- The closure that `PoolJob::cancel` catches. -/
def cancelTask : Code Event P Unit :=
  match job.inner with
  | .detached _ _ captures => call captures
  | .completable _ _ cancel completion captures => inScope (inScope (call cancel) (call completion)) (call captures)
  | .custom _ run cancel => inScope (ignore drops (call cancel.call)) (call run.captures)

def cancel : Code Event P Unit := ignore drops (job.cancelTask drops)

def discard (accepted : Bool) : Code Event P Unit := ignore drops (dropGlue (job.captures accepted))

def acceptResidue : Behaviour P :=
  match job.inner with
  | .detached _ _ _ => none
  | .completable accept _ _ _ _ => accept
  | .custom accept _ _ => accept.call.bind drops

/-- What is left to be caught around `run`: a payload of the callback was destroyed inside. -/
def runResidue : List (Behaviour P) :=
  match job.inner with
  | .detached run result captures => [run.elim result drops, captures]
  | .completable _ run _ _ _ => [run]
  | .custom _ run cancel => [run.call.bind drops, cancel.captures]

def cancelResidue : List (Behaviour P) :=
  match job.inner with
  | .detached _ _ captures => [captures]
  | .completable _ _ cancel completion captures => [cancel, completion, captures]
  | .custom _ run cancel => [cancel.call.bind drops, run.captures]

def acceptPanics : Bool :=
  match job.inner with
  | .custom accept _ _ => accept.call.isSome
  | _ => false

theorem run_eq : job.run drops = dropGlue (job.runResidue drops) := by
  unfold run runResidue
  cases job.inner with
  | detached run result captures =>
    rw [← inScope_call]
    cases run <;> rfl
  | completable _ run _ _ _ => exact (dropGlue_singleton run).symm
  | custom _ run cancel =>
    simp only
    rw [ignore_call, inScope_call]

theorem cancelTask_eq : job.cancelTask drops = dropGlue (job.cancelResidue drops) := by
  unfold cancelTask cancelResidue
  cases job.inner with
  | detached _ _ captures => exact (dropGlue_singleton captures).symm
  | completable _ _ cancel completion captures => exact inScope_inScope_call _ _ _
  | custom _ run cancel =>
    simp only
    rw [ignore_call, inScope_call]

/-- The acceptance as a destruction of what is left of it. -/
theorem accept_eq : job.accept drops = do
    call (job.acceptResidue drops)
    return if job.acceptPanics then .error () else .ok () := by
  obtain ⟨inner, ticketed⟩ := job
  cases inner with
  | detached _ _ _ => rfl
  | completable accept _ _ _ _ => rfl
  | custom accept _ _ =>
    obtain ⟨b, _⟩ := accept
    cases b <;> rfl

theorem accept_trace : (job.accept drops).trace = [] := by
  rw [accept_eq]
  exact bind_trace (call_trace _) fun _ => rfl

/-- The acceptance answers exactly if nothing of it is left, and then truthfully. -/
theorem accept_exit (r : Except Unit Unit) : (job.accept drops).exit = .returned r ↔
    job.acceptResidue drops = none ∧ r = if job.acceptPanics then .error () else .ok () := by
  rw [accept_eq, bind_returned_iff]
  constructor
  · rintro ⟨u, hu, hr⟩
    exact ⟨call_returned_iff.mp hu, (Exit.returned.inj hr).symm⟩
  · rintro ⟨hu, rfl⟩
    exact ⟨(), call_returned_iff.mpr hu, rfl⟩

/-- A cancellation returns exactly if what is left of it is defused. -/
theorem cancel_exit : (job.cancel drops).exit = .returned () ↔ Defused drops (job.cancelResidue drops) := by
  rw [cancel, cancelTask_eq]
  exact ignore_dropGlue_iff

theorem discard_exit (accepted : Bool) :
    (job.discard drops accepted).exit = .returned () ↔ Defused drops (job.captures accepted) :=
  ignore_dropGlue_iff

theorem cancel_trace : (job.cancel drops).trace = [] := by
  rw [cancel, cancelTask_eq]
  exact ignore_trace (dropGlue_trace _)

theorem discard_trace (accepted : Bool) : (job.discard drops accepted).trace = [] := ignore_trace (dropGlue_trace _)

end PoolJob

end ThreadPools.Containment
