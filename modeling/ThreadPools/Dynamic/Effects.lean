import ThreadPools.Dynamic.Gauges

/-! # What a step can change

Few control points raise a counter, register a worker or write monitor-protected
data. The stability of an observation follows from this list alone.
-/
namespace ThreadPools.Dynamic
open Interleaving

def Pc.raises : Pc → Option Counter
  | .submit _ .reserveSlot | .submit _ .handoff => some .queueSlot
  | .submit _ .publishSubmitted => some .submitted
  | .submit _ .publishQueued => some .queued
  | .submit _ .requestedCancelling | .stop (.drainCancelling _ _ _) | .ticket _ .cancelling => some .cancelling
  | .worker (.claimRunning _) => some .running
  | .worker (.finishCompleted _) => some .completed
  | .cancel .addCancelled _ => some .cancelled
  | _ => none

def Pc.canGrow : Pc → Bool
  | .submit _ .reserveSlot => true
  | _ => false

structure Effect (sh : Shared) (p : Pc) (sh' : Shared) : Prop where
  gate : sh.acct.admission.closed = true →
    sh'.acct.admission.closed = true ∧ sh'.acct.inflightCount ≤ sh.acct.inflightCount
  count : ∀ d, sh'.acct.count d ≤ sh.acct.count d ∨ p.raises = some d
  lifecycle : sh.state.lifecycle.rank ≤ sh'.state.lifecycle.rank
  live : sh'.state.liveWorkers ≤ sh.state.liveWorkers ∨ sh.state.lifecycle = .running ∨ p.canGrow = true
  exiting : sh'.state.exitingWorkers ≤ sh.state.exitingWorkers ∨ p = .worker .unregister
  maximum : 0 < sh.state.maximumPoolSize → 0 < sh'.state.maximumPoolSize
  stored : sh.state.lifecycle ≠ .terminated → sh'.state.lifecycle ≠ .terminated
  monitor : p.locks = true ∨ sh.locked = false ∨ sh'.state = sh.state
  observed : sh'.observed = sh.observed ∨ ∃ terminated : Bool,
    p = .observe (.unlock .lifecycle terminated) ∧ sh'.state = sh.state ∧
      sh'.observed = sh.observed ++ [if terminated then .terminated else sh.state.lifecycle]

namespace Effect
variable {sh sh' : Shared} {p p' : Pc} {c : Outcome} {j : JobId}

theorem of_calm (ha : PoolAccounting.Calms sh.acct sh'.acct) (hs : sh'.state = sh.state)
    (ho : sh'.observed = sh.observed) : Effect sh p sh' where
  gate := ha.1
  count := fun d => Or.inl (ha.2 d)
  lifecycle := by rw [hs]
  live := Or.inl (by rw [hs])
  exiting := Or.inl (by rw [hs])
  maximum := by rw [hs]; exact id
  stored := by rw [hs]; exact id
  monitor := Or.inr (Or.inr hs)
  observed := Or.inl ho

theorem of_raise {d : Counter} (hp : p.raises = some d) (ha : sh'.acct = sh.acct.add d)
    (hs : sh'.state = sh.state) (ho : sh'.observed = sh.observed) : Effect sh p sh' where
  gate := by rw [ha]; exact fun h => ⟨h, le_refl _⟩
  count := fun e => by
    rw [ha, PoolAccounting.add_count]
    by_cases he : e = d
    · exact Or.inr (he ▸ hp)
    · simp [he]
  lifecycle := by rw [hs]
  live := Or.inl (by rw [hs])
  exiting := Or.inl (by rw [hs])
  maximum := by rw [hs]; exact id
  stored := by rw [hs]; exact id
  monitor := Or.inr (Or.inr hs)
  observed := Or.inl ho

theorem of_monitor (ha : sh'.acct = sh.acct) (hm : p.locks = true ∨ sh.locked = false)
    (hl : sh.state.lifecycle.rank ≤ sh'.state.lifecycle.rank)
    (hlive : sh'.state.liveWorkers ≤ sh.state.liveWorkers ∨ sh.state.lifecycle = .running ∨ p.canGrow = true)
    (hexit : sh'.state.exitingWorkers ≤ sh.state.exitingWorkers ∨ p = .worker .unregister)
    (hmax : 0 < sh.state.maximumPoolSize → 0 < sh'.state.maximumPoolSize)
    (hs : sh'.state.lifecycle = .terminated → sh.state.lifecycle = .terminated)
    (ho : sh'.observed = sh.observed) : Effect sh p sh' where
  gate := by rw [ha]; exact fun h => ⟨h, le_refl _⟩
  count := fun d => Or.inl (by rw [ha])
  lifecycle := hl
  live := hlive
  exiting := hexit
  maximum := hmax
  stored := mt hs
  monitor := hm.imp_right Or.inl
  observed := Or.inl ho

end Effect

variable {sh sh' : Shared} {p p' : Pc} {c : Outcome} {j : JobId}
open Effect

theorem submitStep_effect {p : SubmitPc} (h : submitStep sh j c p = some (sh', p')) :
    Effect sh (.submit j p) sh' := by
  cases p with
  | enter =>
    simp only [submitStep] at h
    split at h
    · rename_i ha
      cases h
      exact of_calm (.of_tryEnter ha) rfl rfl
    · cases h
      exact of_calm (.refl _) rfl rfl
  | checkState =>
    simp only [submitStep] at h
    split at h
    · cases h
      exact of_calm (.refl _) rfl rfl
    · rename_i hrun
      repeat' split at h
      all_goals cases h
      · exact of_monitor rfl (Or.inl rfl) (le_refl _) (Or.inr (Or.inl (not_not.mp hrun))) (Or.inl (le_refl _)) id id rfl
      · exact of_monitor rfl (Or.inl rfl) (le_refl _) (Or.inr (Or.inl (not_not.mp hrun))) (Or.inl (le_refl _)) id id rfl
      · exact of_calm (.refl _) rfl rfl
  | reserveSlot =>
    simp only [submitStep] at h
    split at h
    · rename_i ha
      obtain rfl := PoolAccounting.tryReserveBoundedSlot_eq ha
      cases h
      exact of_raise rfl rfl rfl rfl
    · split at h <;> cases h
      · exact of_monitor rfl (Or.inl rfl) (le_refl _) (Or.inr (Or.inr rfl)) (Or.inl (le_refl _)) id id rfl
      · exact of_calm (.refl _) rfl rfl
  | leave result =>
    simp only [submitStep] at h
    split at h
    · rename_i ha
      cases h
      exact of_calm (.of_leave ha) rfl rfl
    · cases h
      exact of_calm (.refl _) rfl rfl
  | _ =>
    simp only [submitStep, Shared.lock, Shared.lockQueue, Shared.withLock, Shared.lower] at h
    repeat' split at h
    all_goals cases h
    all_goals first
      | exact of_calm (.refl _) rfl rfl
      | exact of_raise rfl rfl rfl rfl
      | exact of_calm (.of_sub ‹_›) rfl rfl

theorem spawnStep_effect {p : SpawnPc} {k : SpawnCaller} (h : spawnStep sh k c p = some (sh', p')) :
    Effect sh (.spawn p k) sh' := by
  cases p with
  | rollback =>
    simp only [spawnStep] at h
    split at h <;> cases h
    · exact of_monitor rfl (Or.inl rfl) (le_refl _) (Or.inl (Nat.sub_le _ _)) (Or.inl (le_refl _)) id id rfl
    · exact of_calm (.refl _) rfl rfl
  | spawn =>
    cases c <;> cases h
    all_goals exact of_calm (.refl _) rfl rfl
  | _ =>
    cases h
    exact of_calm (.refl _) rfl rfl

theorem prestartStep_effect (h : prestartStep sh = some (sh', p')) : Effect sh .prestart sh' := by
  obtain ⟨s, hs, h⟩ := Option.map_eq_some_iff.mp h
  obtain ⟨hf, rfl⟩ := sh.lock_eq_some hs
  split at h
  · cases h
    exact of_calm (.refl _) rfl rfl
  · rename_i hrun
    split at h <;> cases h
    · exact of_calm (.refl _) rfl rfl
    · exact of_monitor rfl (Or.inr hf) (le_refl _) (Or.inr (Or.inl (not_not.mp hrun))) (Or.inl (le_refl _)) id id rfl

theorem workerStep_effect {p : WorkerPc} (h : workerStep sh c p = some (sh', p')) :
    Effect sh (.worker p) sh' := by
  cases p with
  | takePop =>
    simp only [workerStep] at h
    split at h
    · cases h
      exact of_calm (.refl _) rfl rfl
    · split at h
      · rename_i hs
        obtain rfl := takeQueued_eq_some hs
        cases h
        exact of_calm (.refl _) rfl rfl
      · cases h
        exact of_calm (.refl _) rfl rfl
  | mark timed =>
    cases h
    exact of_monitor rfl (Or.inl rfl) (le_refl _) (Or.inl (le_refl _)) (Or.inl (le_refl _)) id id rfl
  | drainMark =>
    cases h
    exact of_monitor rfl (Or.inl rfl) (le_refl _) (Or.inl (le_refl _)) (Or.inl (le_refl _)) id id rfl
  | unmark retire =>
    simp only [workerStep] at h
    split at h <;> cases h
    · exact of_monitor rfl (Or.inl rfl) (le_refl _) (Or.inl (le_refl _)) (Or.inl (le_refl _)) id id rfl
    · exact of_calm (.refl _) rfl rfl
  | unregister =>
    simp only [workerStep] at h
    split at h <;> cases h
    · exact of_monitor rfl (Or.inl rfl) (le_refl _) (Or.inl (Nat.sub_le _ _)) (Or.inr rfl) id id rfl
    · exact of_calm (.refl _) rfl rfl
  | exitLock =>
    obtain ⟨s, hs, h⟩ := Option.map_eq_some_iff.mp h
    obtain ⟨hf, rfl⟩ := sh.lock_eq_some hs
    split at h <;> cases h
    · exact of_monitor rfl (Or.inr hf) (le_refl _) (Or.inl (le_refl _)) (Or.inl (Nat.sub_le _ _)) id id rfl
    · exact of_calm (.refl _) rfl rfl
  | _ =>
    simp only [workerStep, Shared.lock, Shared.lockQueue, Shared.lower] at h
    repeat' split at h
    all_goals first | (simp only [Option.map_some] at h; (repeat' split at h) <;> cases h) | cases h
    all_goals first
      | exact of_calm (.refl _) rfl rfl
      | exact of_raise rfl rfl rfl rfl
      | exact of_calm (.of_sub ‹_›) rfl rfl

theorem shutdownStep_effect {p : ShutdownPc} (h : shutdownStep sh p = some (sh', p')) :
    Effect sh (.shutdown p) sh' := by
  cases p with
  | close =>
    cases h
    exact of_calm (.of_close _) rfl rfl
  | lockState =>
    obtain ⟨s, hs, h⟩ := Option.map_eq_some_iff.mp h
    obtain ⟨hf, rfl⟩ := sh.lock_eq_some hs
    split at h <;> cases h
    · rename_i hrun
      replace hrun : sh.state.lifecycle = .running := hrun
      exact of_monitor rfl (Or.inr hf) (by simp [hrun, ExecutorServiceLifecycle.rank])
        (Or.inl (le_refl _)) (Or.inl (le_refl _)) id nofun rfl
    · exact of_calm (.refl _) rfl rfl
  | _ =>
    cases h
    all_goals exact of_calm (.refl _) rfl rfl

theorem stopStep_effect {p : StopPc} (h : stopStep sh p = some (sh', p')) : Effect sh (.stop p) sh' := by
  cases p with
  | close =>
    cases h
    exact of_calm (.of_close _) rfl rfl
  | lockState =>
    obtain ⟨s, hs, h⟩ := Option.map_eq_some_iff.mp h
    obtain ⟨hf, rfl⟩ := sh.lock_eq_some hs
    cases hl : sh.state.lifecycle <;> simp only [hl] at h <;> cases h
    · exact of_monitor rfl (Or.inr hf) (by simp [hl, Shared.setLifecycle, ExecutorServiceLifecycle.rank])
        (Or.inl (le_refl _)) (Or.inl (le_refl _)) id nofun rfl
    · exact of_monitor rfl (Or.inr hf) (by simp [hl, Shared.setLifecycle, ExecutorServiceLifecycle.rank])
        (Or.inl (le_refl _)) (Or.inl (le_refl _)) id nofun rfl
    · exact of_calm (.refl _) rfl rfl
    · exact of_calm (.refl _) rfl rfl
  | drain running jobs =>
    simp only [stopStep] at h
    split at h
    · cases h
      exact of_calm (.refl _) rfl rfl
    · split at h
      · rename_i hs
        obtain rfl := takeQueued_eq_some hs
        cases h
        exact of_calm (.refl _) rfl rfl
      · cases h
        exact of_calm (.refl _) rfl rfl
  | next jobs report =>
    cases jobs <;> cases h
    all_goals exact of_calm (.refl _) rfl rfl
  | _ =>
    simp only [stopStep, Shared.lock, Shared.lockQueue, Shared.withLock, Shared.lower] at h
    repeat' split at h
    all_goals cases h
    all_goals first
      | exact of_calm (.refl _) rfl rfl
      | exact of_raise rfl rfl rfl rfl
      | exact of_calm (.of_sub ‹_›) rfl rfl

theorem ticketStep_effect {p : TicketPc} (h : ticketStep sh j p = some (sh', p')) :
    Effect sh (.ticket j p) sh' := by
  cases p with
  | remove =>
    simp only [ticketStep] at h
    split at h
    · split at h
      · rename_i hs
        obtain rfl := takeQueued_eq_some hs
        cases h
        exact of_calm (.refl _) rfl rfl
      · cases h
        exact of_calm (.refl _) rfl rfl
    · cases h
      exact of_calm (.refl _) rfl rfl
  | _ =>
    simp only [ticketStep, Shared.lockQueue, Shared.lower] at h
    repeat' split at h
    all_goals cases h
    all_goals first
      | exact of_calm (.refl _) rfl rfl
      | exact of_raise rfl rfl rfl rfl
      | exact of_calm (.of_sub ‹_›) rfl rfl

theorem cancelStep_effect {p : CancelPc} {k : CancelCaller} (h : cancelStep sh k p = some (sh', p')) :
    Effect sh (.cancel p k) sh' := by
  cases p with
  | done =>
    cases k <;> cases h
    all_goals exact of_calm (.refl _) rfl rfl
  | _ =>
    simp only [cancelStep, Shared.lower] at h
    repeat' split at h
    all_goals cases h
    all_goals first
      | exact of_calm (.refl _) rfl rfl
      | exact of_raise rfl rfl rfl rfl
      | exact of_calm (.of_sub ‹_›) rfl rfl

theorem joinStep_effect {p : JoinPc} (h : joinStep sh p = some (sh', p')) : Effect sh (.join p) sh' := by
  cases p
  all_goals simp only [joinStep, Shared.lock] at h
  all_goals repeat' split at h
  all_goals cases h
  all_goals exact of_calm (.refl _) rfl rfl

theorem observeStep_effect {p : ObservePc} (h : observeStep sh c p = some (sh', p')) :
    Effect sh (.observe p) sh' := by
  cases p with
  | unlock o terminated =>
    cases o with
    | lifecycle =>
      cases h
      exact ⟨fun h => ⟨h, le_refl _⟩, fun _ => Or.inl (le_refl _), le_refl _, Or.inl (le_refl _),
        Or.inl (le_refl _), id, id, Or.inl rfl, Or.inr ⟨terminated, rfl, rfl, rfl⟩⟩
    | _ =>
      cases h
      exact of_calm (.refl _) rfl rfl
  | _ =>
    simp only [observeStep, Shared.lock] at h
    repeat' split at h
    all_goals cases h
    all_goals exact of_calm (.refl _) rfl rfl

theorem setterStep_effect {p : SetterPc} (h : setterStep sh p = some (sh', p')) :
    Effect sh (.setter p) sh' := by
  cases p
  all_goals simp only [setterStep, Shared.withLock] at h
  all_goals repeat' split at h
  all_goals cases h
  all_goals first
    | exact of_calm (.refl _) rfl rfl
    | exact of_monitor rfl (Or.inr (Bool.eq_false_iff.mpr ‹_›)) (le_refl _) (Or.inl (le_refl _))
        (Or.inl (le_refl _)) id id rfl
    | exact of_monitor rfl (Or.inr (Bool.eq_false_iff.mpr ‹_›)) (le_refl _) (Or.inl (le_refl _))
        (Or.inl (le_refl _)) (fun _ => Nat.pos_of_ne_zero ‹_›) id rfl

theorem step_effect {p : Pc} (h : step sh c p = some (sh', p')) : Effect sh p sh' := by
  cases p with
  | submit j p => exact submitStep_effect h
  | spawn p k => exact spawnStep_effect h
  | prestart => exact prestartStep_effect h
  | worker p => exact workerStep_effect h
  | shutdown p => exact shutdownStep_effect h
  | stop p => exact stopStep_effect h
  | ticket j p => exact ticketStep_effect h
  | cancel p k => exact cancelStep_effect h
  | join p => exact joinStep_effect h
  | observe p => exact observeStep_effect h
  | setter p => exact setterStep_effect h
  | notifyLock k =>
    obtain ⟨s, hs, h⟩ := Option.map_eq_some_iff.mp h
    obtain ⟨-, rfl⟩ := sh.lock_eq_some hs
    cases h
    exact of_calm (.refl _) rfl rfl
  | prestarted _ => cases h
  | panicked _ => cases h
  | _ =>
    cases h
    exact of_calm (.refl _) rfl rfl

end ThreadPools.Dynamic
