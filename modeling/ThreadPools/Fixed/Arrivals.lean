import ThreadPools.Fixed.Book

/-! # Where the workers and stop calls of the fixed pool come from -/
namespace ThreadPools.Fixed

variable {sh sh' : Shared} {p' : Pc}

/-- The worker was at `p` and has made its step from `sh` to `sh'`. -/
def WorkerPc.Arrives (sh sh' : Shared) (p : WorkerPc) : Pc → Prop
  | .worker (.claimQueued j) => p = .acceptStop j ∧ sh.stopNow = false
  | .worker (.claimRunning j) => p = .claimQueued j
  | .worker (.claimSlot j) => p = .claimRunning j
  | .worker (.callRun j) => p = .claimSlot j
  | .worker .mark => sh'.state.lifecycle = .running
  | .worker .readQueued => p = .mark ∧ sh'.state = sh.markWorkerIdle.state
  | .worker .readPending => p = .readQueued ∧ sh' = sh
  | .worker .park => p = .readPending ∧ sh' = sh
  | .worker (.parked epoch) => p = .park ∧ sh' = sh.unlock ∧ epoch = sh.epoch
  | .worker .drainQueued => sh'.state.lifecycle = .shuttingDown
  | .worker .drainInflight => p = .drainQueued ∧ sh' = sh ∧ sh.acct.queuedCount = 0
  | .worker .drainMark => p = .drainInflight ∧ sh' = sh
  | .worker .drainReadQueued => p = .drainMark ∧ sh'.state = sh.markWorkerIdle.state
  | .worker .drainReadInflight => p = .drainReadQueued ∧ sh' = sh
  | .worker .drainPark => p = .drainReadInflight ∧ sh' = sh ∧ 0 < sh.acct.inflightCount
  | .worker (.drainParked epoch) => p = .drainPark ∧ sh' = sh.unlock ∧ epoch = sh.epoch
  | .worker .stopHook => p = .drainInflight ∨ p = .dispatch ∧ sh.state.lifecycle ≠ .running
  | .worker .exit => p = .stopHook
  | .worker .exited => p = .exit
  | .panicked .idleWorkers => (∃ again, p = .unmark again) ∧ ¬ (0 < sh.state.idleWorkers ∧ 0 < sh.idleWorkerCount)
  | .panicked .liveWorkers => p = .exit ∧ ¬ 0 < sh.state.liveWorkers
  | .worker _ | .panicked (.counter _) => True
  | .cancel q k => q = .call ∧ ∃ j, k = .worker j
  | .idle r k => r = .inflight ∧ k = .finishedRunning
  | _ => False

theorem workerStep_arrives {p : WorkerPc} (h : workerStep sh p = some (sh', p')) : p.Arrives sh sh' p' := by
  cases p with
  | acceptStop j =>
    simp only [workerStep] at h
    split at h <;> cases h
    · trivial
    · exact ⟨rfl, Bool.eq_false_iff.mpr ‹_›⟩
  | claimQueued j | claimSlot j =>
    simp only [workerStep, Shared.lower] at h
    split at h <;> cases h
    · rfl
    · trivial
  | claimRunning j =>
    cases h
    rfl
  | cancelling j =>
    cases h
    exact ⟨rfl, j, rfl⟩
  | dispatch =>
    simp only [workerStep] at h
    cases hl : sh.state.lifecycle <;> simp only [hl] at h <;> cases h
    · trivial
    · exact hl
    · exact Or.inr ⟨rfl, by simp [hl]⟩
    · exact Or.inr ⟨rfl, by simp [hl]⟩
  | relock =>
    obtain ⟨s, -, h⟩ := Option.map_eq_some_iff.mp h
    split at h <;> cases h
    · assumption
    · trivial
  | mark | drainMark =>
    cases h
    exact ⟨rfl, rfl⟩
  | park | drainPark =>
    cases h
    exact ⟨rfl, rfl, rfl⟩
  | readQueued | readPending | drainReadQueued =>
    simp only [workerStep] at h
    split at h <;> cases h
    all_goals trivial
  | drainQueued =>
    simp only [workerStep] at h
    split at h <;> cases h
    · trivial
    · exact ⟨rfl, rfl, Nat.eq_zero_of_not_pos ‹_›⟩
  | drainInflight =>
    simp only [workerStep] at h
    split at h <;> cases h
    · exact Or.inl rfl
    · exact ⟨rfl, rfl⟩
  | drainReadInflight =>
    simp only [workerStep] at h
    split at h <;> cases h
    · exact ⟨rfl, rfl, ‹_›⟩
    · trivial
  | unmark again =>
    simp only [workerStep] at h
    split at h <;> cases h
    · trivial
    · exact ⟨⟨again, rfl⟩, ‹_›⟩
  | consume again => cases again <;> cases h <;> trivial
  | stopHook =>
    cases h
    rfl
  | exit =>
    simp only [workerStep] at h
    repeat' split at h
    all_goals cases h
    · rfl
    · exact ⟨rfl, ‹_›⟩
  | _ =>
    simp only [workerStep, Shared.lock, Shared.withLock, Shared.lower] at h
    repeat' split at h
    all_goals first | (simp only [Option.map_some] at h; cases h) | cases h
    all_goals trivial

/-- The call was at `p` and has made its step from `sh` to `sh'`. -/
def StopPc.Arrives (sh sh' : Shared) (p : StopPc) : Pc → Prop
  | .stop (.park info) => p = .recheck info ∧ sh' = sh ∧ 0 < sh.acct.inflightCount
  | .stop (.parked info epoch) => p = .park info ∧ sh' = sh.unlock ∧ epoch = sh.epoch
  | .panicked .submitWaiters => (∃ info, p = .subWaiter info) ∧ ¬ 0 < sh.submitWaiterCount
  | .stop _ | .panicked (.counter _) => True
  | .cancel q _ => q = .call
  | _ => False

theorem stopStep_arrives {p : StopPc} (h : stopStep sh p = some (sh', p')) : p.Arrives sh sh' p' := by
  cases p with
  | lockState info =>
    obtain ⟨s, -, h⟩ := Option.map_eq_some_iff.mp h
    cases hl : s.state.lifecycle <;> simp only [hl] at h <;> cases h <;> trivial
  | recheck info =>
    simp only [stopStep] at h
    split at h <;> cases h
    · exact ⟨rfl, rfl, ‹_›⟩
    · trivial
  | park info =>
    cases h
    exact ⟨rfl, rfl, rfl⟩
  | subWaiter info =>
    simp only [stopStep] at h
    split at h <;> cases h
    · trivial
    · exact ⟨⟨info, rfl⟩, ‹_›⟩
  | next jobs report =>
    cases jobs <;> cases h
    · trivial
    · rfl
  | _ =>
    simp only [stopStep, Shared.lock, Shared.withLock, Shared.lower] at h
    repeat' split at h
    all_goals cases h
    all_goals trivial

end ThreadPools.Fixed
