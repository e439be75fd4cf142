import ThreadPools.Dynamic.Book

/-! # Where workers and stop calls come from

What the step into a control point was, and what it has read there. Facts about single
control points are read off the arrivals instead of the step function.
-/
namespace ThreadPools.Dynamic

variable {sh sh' : Shared} {p' : Pc} {c : Outcome}

/-- The worker was at `p` and has made its step from `sh` to `sh'`. -/
def WorkerPc.Arrives (sh sh' : Shared) (p : WorkerPc) : Pc → Prop
  | .worker (.mark _) => sh'.state.lifecycle = .running
  | .worker (.readQueued timed) => p = .mark timed ∧ sh'.state = sh.markWorkerIdle.state
  | .worker (.readPending timed) => p = .readQueued timed ∧ sh' = sh
  | .worker (.park timed) => p = .readPending timed ∧ sh' = sh
  | .worker (.parked timed epoch) => p = .park timed ∧ sh' = sh.unlock ∧ epoch = sh.epoch
  | .worker (.unmark true) => sh' = sh ∧ sh.state.idleWorkerCanRetire = true
  | .worker (.consume retire) => p = .unmark retire ∧ sh' = sh.unmarkWorkerIdle
  | .worker .unregister =>
    p = .lockState ∧ sh'.state.lifecycle ≠ .running ∨ p = .drainInflight ∧ sh' = sh ∨
      p = .consume true ∧ sh'.state = sh.state ∨
      p = .overMaximum ∧ sh' = sh ∧ sh.state.maximumPoolSize < sh.state.liveWorkers
  | .worker .drainQueued => sh'.state.lifecycle = .shuttingDown
  | .worker .drainInflight => p = .drainQueued ∧ sh' = sh ∧ sh.acct.queuedCount = 0
  | .worker .drainMark => p = .drainInflight ∧ sh' = sh
  | .worker .drainReadQueued => p = .drainMark ∧ sh'.state = sh.markWorkerIdle.state
  | .worker .drainReadInflight => p = .drainReadQueued ∧ sh' = sh
  | .worker .drainPark => p = .drainReadInflight ∧ sh' = sh ∧ 0 < sh.acct.inflightCount
  | .worker (.drainParked epoch) => p = .drainPark ∧ sh' = sh.unlock ∧ epoch = sh.epoch
  | .panicked .idleWorkers => (∃ retire, p = .unmark retire) ∧ ¬ (0 < sh.state.idleWorkers ∧ 0 < sh.idleWorkerCount)
  | .panicked .liveWorkers =>
    p = .unregister ∧ ¬ 0 < sh.state.liveWorkers ∨ p = .unregisterCount ∧ ¬ 0 < sh.liveWorkerCount
  | .panicked .exitingWorkers => p = .exitLock ∧ ¬ 0 < sh.state.exitingWorkers
  | .worker _ | .panicked (.counter _) => True
  | .term k => k = .unregister ∨ k = .exit
  | .idle r k => r = .inflight ∧ k = .finishedRunning
  | _ => False

theorem WorkerPc.Arrives.of_decided {p : WorkerPc} : p.Arrives sh sh (.worker (.unmark sh.state.idleWorkerCanRetire)) := by
  cases hc : sh.state.idleWorkerCanRetire with
  | true => exact ⟨rfl, hc⟩
  | false => trivial

theorem workerStep_arrives {p : WorkerPc} (h : workerStep sh c p = some (sh', p')) : p.Arrives sh sh' p' := by
  cases p with
  | lockState =>
    obtain ⟨s, -, h⟩ := Option.map_eq_some_iff.mp h
    cases hl : s.state.lifecycle <;> simp only [hl] at h <;> cases h
    · trivial
    · exact hl
    · exact Or.inl ⟨rfl, by simp [hl]⟩
    · exact Or.inl ⟨rfl, by simp [hl]⟩
  | overMaximum =>
    simp only [workerStep] at h
    split at h <;> cases h
    · rename_i hover
      exact Or.inr (Or.inr (Or.inr ⟨rfl, rfl, hover.2.1⟩))
    · trivial
  | relock =>
    obtain ⟨s, -, h⟩ := Option.map_eq_some_iff.mp h
    split at h <;> cases h
    · assumption
    · trivial
  | mark | drainMark =>
    cases h
    exact ⟨rfl, rfl⟩
  | park | drainPark =>
    cases h
    exact ⟨rfl, rfl, rfl⟩
  | readQueued | readPending | drainReadQueued =>
    simp only [workerStep] at h
    split at h <;> cases h
    all_goals trivial
  | retirePending =>
    simp only [workerStep] at h
    repeat' split at h
    all_goals cases h
    · trivial
    · exact .of_decided
    · trivial
  | retireInflight =>
    simp only [workerStep] at h
    split at h <;> cases h
    · exact .of_decided
    · trivial
  | drainInflight =>
    simp only [workerStep] at h
    split at h <;> cases h
    · exact Or.inr (Or.inl ⟨rfl, rfl⟩)
    · exact ⟨rfl, rfl⟩
  | drainQueued | drainReadInflight =>
    simp only [workerStep] at h
    split at h <;> cases h
    · exact ⟨rfl, rfl, ‹_›⟩
    · trivial
  | unmark retire =>
    simp only [workerStep] at h
    split at h <;> cases h
    · exact ⟨rfl, rfl⟩
    · exact ⟨⟨retire, rfl⟩, ‹_›⟩
  | consume retire =>
    cases retire <;> cases h
    · trivial
    · exact Or.inr (Or.inr (Or.inl ⟨rfl, rfl⟩))
  | unregister =>
    simp only [workerStep] at h
    split at h <;> cases h
    · trivial
    · exact Or.inl ⟨rfl, ‹_›⟩
  | unregisterCount =>
    simp only [workerStep] at h
    split at h <;> cases h
    · exact Or.inl rfl
    · exact Or.inr ⟨rfl, ‹_›⟩
  | exitLock =>
    obtain ⟨s, hs, h⟩ := Option.map_eq_some_iff.mp h
    obtain ⟨-, rfl⟩ := sh.lock_eq_some hs
    split at h <;> cases h
    · exact Or.inr rfl
    · exact ⟨rfl, ‹_›⟩
  | _ =>
    simp only [workerStep, Shared.lock, Shared.lockQueue, Shared.lower] at h
    repeat' split at h
    all_goals first | (simp only [Option.map_some] at h; cases h) | cases h
    all_goals trivial

/-- The call was at `p` and has made its step from `sh` to `sh'`. -/
def StopPc.Arrives (sh sh' : Shared) (p : StopPc) : Pc → Prop
  | .stop .park => p = .recheck ∧ sh' = sh ∧ 0 < sh.acct.inflightCount
  | .stop (.parked epoch) => p = .park ∧ sh' = sh.unlock ∧ epoch = sh.epoch
  | .panicked .submitWaiters => p = .subWaiter ∧ ¬ 0 < sh.submitWaiterCount
  | .stop _ | .cancel _ _ | .term _ | .panicked (.counter _) => True
  | _ => False

theorem stopStep_arrives {p : StopPc} (h : stopStep sh p = some (sh', p')) : p.Arrives sh sh' p' := by
  cases p with
  | recheck =>
    simp only [stopStep] at h
    split at h <;> cases h
    · exact ⟨rfl, rfl, ‹_›⟩
    · trivial
  | park =>
    cases h
    exact ⟨rfl, rfl, rfl⟩
  | subWaiter =>
    simp only [stopStep] at h
    split at h <;> cases h
    · trivial
    · exact ⟨rfl, ‹_›⟩
  | next jobs report => cases jobs <;> cases h <;> trivial
  | _ =>
    simp only [stopStep, Shared.lock, Shared.lockQueue, Shared.withLock, Shared.lower] at h
    repeat' split at h
    all_goals cases h
    all_goals trivial

end ThreadPools.Dynamic
