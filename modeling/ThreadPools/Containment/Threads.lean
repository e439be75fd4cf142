import ThreadPools.Containment.PoolJob

/-! # Threads that run callbacks

What the workers, the submitters and the callers of `stop` and `cancel_queued` do with user
code, thread by thread. What the other threads do enters as an argument: the jobs that a
worker takes, the verdict of the admission, the jobs that are drained.
-/
namespace ThreadPools.Containment
open Unwinding Unwinding.Code
open ThreadPools.Dynamic (QueuedJobState ThreadId)

variable {P A : Type}

/-- The installed hooks; a task hook may behave differently each time it is called. -/
structure ThreadPoolHooks (P : Type) where
  beforeWorkerStart : Option (Behaviour P)
  afterWorkerStop : Option (Behaviour P)
  beforeTask : Option (ℕ → Behaviour P)
  afterTask : Option (ℕ → Behaviour P)

def ThreadPoolHooks.hasTaskHooks (hooks : ThreadPoolHooks P) : Bool :=
  hooks.beforeTask.isSome || hooks.afterTask.isSome

section
variable (drops : P → Behaviour P)

def runHook : Option (Behaviour P) → Code Event P Unit
  | some hook => ignore drops (call hook)
  | none => pure ()

def runWithoutHooks (job : PoolJob P) : Code Event P Unit := ignore drops (job.run drops)

namespace ThreadPoolWorker

/-- The result of the job lives until the function ends. -/
def runWithTaskHooks (job : PoolJob P) (before after : Option (Behaviour P)) : Code Event P Unit := do
  cleanup (runHook drops before) (dropGlue (job.captures true))
  let r ← catchUnwind (job.run drops)
  inScope (runHook drops after) (dropResult drops r)

def runClaimed (hooks : ThreadPoolHooks P) (n : ℕ) (job : PoolJob P) : Code Event P Unit :=
  if hooks.hasTaskHooks then runWithTaskHooks drops job (hooks.beforeTask.map (· n)) (hooks.afterTask.map (· n))
  else runWithoutHooks drops job

/-- The loop over the jobs that `wait_for_job` returns. -/
def loop (hooks : ThreadPoolHooks P) (n : ℕ) : List (PoolJob P) → Code Event P Unit
  | [] => pure ()
  | job :: jobs => do
    emit .claimQueuedJob
    runClaimed drops hooks n job
    emit .finishRunningJob
    loop hooks (n + 1) jobs

/-- `exits` tells whether the loop has ended; otherwise the worker is waiting for a job. -/
def run (hooks : ThreadPoolHooks P) (jobs : List (PoolJob P)) (exits : Bool) : Code Event P Unit := do
  runHook drops hooks.beforeWorkerStart
  loop drops hooks 0 jobs
  if exits then
    runHook drops hooks.afterWorkerStop
    emit .finishWorkerExit

end ThreadPoolWorker

namespace FixedWorker

def runWithTaskHooks (job : PoolJob P) (before after : Option (Behaviour P)) : Code Event P Unit := do
  cleanup (runHook drops before) (dropGlue (job.captures true))
  runWithoutHooks drops job
  runHook drops after

def runClaimed (hooks : ThreadPoolHooks P) (n : ℕ) (job : PoolJob P) : Code Event P Unit :=
  if hooks.hasTaskHooks then runWithTaskHooks drops job (hooks.beforeTask.map (· n)) (hooks.afterTask.map (· n))
  else runWithoutHooks drops job

/-- The loop over the jobs that `try_take_job` steals; those that come with `true` were stolen
after `stop_now` was stored. -/
def loop (hooks : ThreadPoolHooks P) (n : ℕ) : List (PoolJob P × Bool) → Code Event P Unit
  | [] => pure ()
  | (job, true) :: jobs => do
    emit .beginCancelQueuedJob
    job.cancel drops
    emit .finishCancelledJob
    loop hooks n jobs
  | (job, false) :: jobs => do
    emit .claimQueuedJob
    runClaimed drops hooks n job
    emit .finishRunningJob
    loop hooks (n + 1) jobs

def run (hooks : ThreadPoolHooks P) (jobs : List (PoolJob P × Bool)) (exits : Bool) : Code Event P Unit := do
  runHook drops hooks.beforeWorkerStart
  loop drops hooks 0 jobs
  if exits then
    runHook drops hooks.afterWorkerStop
    emit .finishWorkerExit

end FixedWorker

/-- The outcome of the admission: `begin_submit` fails, the reservation fails or succeeds. -/
inductive Admission where
  | closed
  | rejected (error : SubmissionError)
  | reserved

def Admission.reserves : Admission → Bool
  | .reserved => true
  | _ => false

namespace ThreadPoolInner

/-- `cancelRequested` is read when the accepted job is published. -/
def acceptAndEnqueueReservedJob (owner : ThreadId) (job : PoolJob P) (cancelRequested : Bool) :
    Code Event P SubmitResult := do
  if job.ticketed then emit (.setEntry (.accepting owner false))
  match ← cleanup (job.accept drops) (dropGlue (job.captures true)) with
  | .error () =>
    emit .rollbackReservedSlot
    if job.ticketed then emit (.setEntry .rejected)
    job.discard drops true
    return some .acceptancePanicked
  | .ok () =>
    emit .publishAcceptedJob
    if job.ticketed && cancelRequested then
      emit (.setEntry .cancelling)
      emit .beginCancelQueuedJob
      job.cancel drops
      emit .finishCancelledJob
      emit (.setEntry .cancelled)
    else if job.ticketed then emit (.setEntry .queued)
    return none

/-- The guard leaves the admission on every way out. -/
def submit (owner : ThreadId) (admission : Admission) (job : PoolJob P) (cancelRequested : Bool) :
    Code Event P SubmitResult :=
  match admission with
  | .closed => do
    job.discard drops false
    return some (.rejected .shutdown)
  | .rejected error =>
    inScope (do
      job.discard drops false
      return some (.rejected error)) (emit .leave)
  | .reserved =>
    inScope (do
      emit .reserveSlot
      acceptAndEnqueueReservedJob drops owner job cancelRequested) (emit .leave)

/-- `none` is an entry that somebody else has taken out of the queue. -/
def cancelQueuedEntry : Option (PoolJob P) → Code Event P Bool
  | none => pure false
  | some job => do
    emit .beginCancelQueuedJob
    job.cancel drops
    emit .finishCancelledJob
    return true

end ThreadPoolInner

def FixedThreadPoolInner.submit (admission : Admission) (job : PoolJob P) : Code Event P SubmitResult :=
  match admission with
  | .closed => do
    job.discard drops false
    return some (.rejected .shutdown)
  | .rejected error =>
    inScope (do
      job.discard drops false
      return some (.rejected error)) (emit .leave)
  | .reserved =>
    inScope (do
      emit .reserveSlot
      match ← cleanup (job.accept drops) (dropGlue (job.captures true)) with
      | .error () =>
        emit .rollbackReservedSlot
        job.discard drops true
        return some .acceptancePanicked
      | .ok () =>
        emit .publishAcceptedJob
        return none) (emit .leave)

/-- The drained jobs that are left when one of them unwinds are dropped. -/
def cancelAll : List (PoolJob P) → Code Event P Unit
  | [] => pure ()
  | job :: jobs => do
    cleanup (job.cancel drops) (dropGlue (jobs.flatMap fun job => job.captures true))
    emit .finishCancelledJob
    cancelAll jobs

def beginAll : List (PoolJob P) → Code Event P Unit
  | [] => pure ()
  | _ :: jobs => do
    emit .beginCancelQueuedJob
    beginAll jobs

/-- What `stop` of either pool does with the jobs it has drained. -/
def stop (jobs : List (PoolJob P)) : Code Event P Unit := do
  beginAll jobs
  cancelAll drops jobs

end

structure Contained (x : Code Event P A) : Prop where
  returns : ∃ a, x.exit = .returned a
  claims : Settled .claimQueuedJob .finishRunningJob x.trace
  cancels : Settled .beginCancelQueuedJob .finishCancelledJob x.trace

/-- Moreover a submission whose acceptance unwinds reports it and is rolled back. -/
structure SubmitContained (panics ticketed : Bool) (x : Code Event P SubmitResult) : Prop extends Contained x where
  rolledBack : panics = true → x.exit = .returned (some .acceptancePanicked) ∧
    x.trace.count .rollbackReservedSlot = 1 ∧ (ticketed = true → .setEntry .rejected ∈ x.trace)

/-- User code returns, or the payload it unwinds with can be destroyed. -/
def Harmless (drops : P → Behaviour P) (b : Behaviour P) : Prop := b.bind drops = none

structure TaskHarmless (drops : P → Behaviour P) (hooks : ThreadPoolHooks P) (n : ℕ) (job : PoolJob P) : Prop where
  before : ∀ hook ∈ hooks.beforeTask, Harmless drops (hook n)
  after : ∀ hook ∈ hooks.afterTask, Harmless drops (hook n)
  run : Defused drops (job.runResidue drops)

def TakesHarmless (drops : P → Behaviour P) (hooks : ThreadPoolHooks P) : ℕ → List (PoolJob P × Bool) → Prop
  | _, [] => True
  | n, (job, true) :: jobs => Defused drops (job.cancelResidue drops) ∧ TakesHarmless drops hooks n jobs
  | n, (job, false) :: jobs => TaskHarmless drops hooks n job ∧ TakesHarmless drops hooks (n + 1) jobs

structure WorkerHarmless (drops : P → Behaviour P) (hooks : ThreadPoolHooks P) (jobs : List (PoolJob P × Bool))
    (exits : Bool) : Prop where
  start : ∀ hook ∈ hooks.beforeWorkerStart, Harmless drops hook
  jobs : TakesHarmless drops hooks 0 jobs
  stop : exits = true → ∀ hook ∈ hooks.afterWorkerStop, Harmless drops hook

/-- A rejected job is dropped unused, a job whose acceptance unwinds without its acceptance
callback, and an accepted job is cancelled if a ticket has asked for it. -/
def SubmitHarmless (drops : P → Behaviour P) (job : PoolJob P) (cancelRequested : Bool) : Admission → Prop
  | .closed | .rejected _ => Defused drops (job.captures false)
  | .reserved => job.acceptResidue drops = none ∧
      (job.acceptPanics = true → Defused drops (job.captures true)) ∧
      (job.acceptPanics = false → job.ticketed = true → cancelRequested = true →
        Defused drops (job.cancelResidue drops))

end ThreadPools.Containment
