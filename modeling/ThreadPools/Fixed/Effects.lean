import ThreadPools.Fixed.Gauges

/-! # What a step of the fixed pool can change -/
namespace ThreadPools.Fixed
open Interleaving

def Pc.raises : Pc → Option Counter
  | .submit _ .reserve => some .queueSlot
  | .submit _ .publishSubmitted => some .submitted
  | .submit _ .publishQueued => some .queued
  | .worker (.cancelling _) | .stop (.beginCancelling _ _ _ _) => some .cancelling
  | .worker (.claimRunning _) => some .running
  | .worker (.finishCompleted _) => some .completed
  | .cancel .addCancelled _ => some .cancelled
  | _ => none

structure Effect (sh : Shared) (p : Pc) (sh' : Shared) : Prop where
  gate : sh.acct.admission.closed = true →
    sh'.acct.admission.closed = true ∧ sh'.acct.inflightCount ≤ sh.acct.inflightCount
  count : ∀ d, sh'.acct.count d ≤ sh.acct.count d ∨ p.raises = some d
  running : sh.acct.count .running ≤ sh'.acct.count .running ∨ ∃ j, p = .worker (.finishRunning j)
  lifecycle : sh.state.lifecycle.rank ≤ sh'.state.lifecycle.rank
  live : sh'.state.liveWorkers ≤ sh.state.liveWorkers
  stored : sh.state.lifecycle ≠ .terminated → sh'.state.lifecycle ≠ .terminated
  size : sh'.poolSize = sh.poolSize
  monitor : p.locks = true ∨ sh.locked = false ∨ sh'.state = sh.state
  observed : sh'.observed = sh.observed ∨ ∃ terminated : Bool,
    p = .observe (.unlock .lifecycle terminated) ∧ sh'.state = sh.state ∧
      sh'.observed = sh.observed ++ [if terminated then .terminated else sh.state.lifecycle]

namespace Effect
variable {sh sh' : Shared} {p p' : Pc} {c : Outcome} {j : JobId}

theorem of_calm (ha : PoolAccounting.Calms sh.acct sh'.acct)
    (hr : sh.acct.count .running ≤ sh'.acct.count .running) (hs : sh'.state = sh.state)
    (hz : sh'.poolSize = sh.poolSize) (ho : sh'.observed = sh.observed) : Effect sh p sh' where
  gate := ha.1
  count := fun d => Or.inl (ha.2 d)
  running := Or.inl hr
  lifecycle := by rw [hs]
  live := by rw [hs]
  stored := by rw [hs]; exact id
  size := hz
  monitor := Or.inr (Or.inr hs)
  observed := Or.inl ho

theorem of_same (ha : sh'.acct = sh.acct) (hs : sh'.state = sh.state)
    (hz : sh'.poolSize = sh.poolSize) (ho : sh'.observed = sh.observed) : Effect sh p sh' :=
  of_calm (ha ▸ .refl _) (by rw [ha]) hs hz ho

theorem of_sub {a : PoolAccounting} {d : Counter} (h : sh.acct.sub d = some a) (hd : d ≠ .running)
    (ha : sh'.acct = a) (hs : sh'.state = sh.state) (hz : sh'.poolSize = sh.poolSize)
    (ho : sh'.observed = sh.observed) : Effect sh p sh' := by
  refine of_calm (ha ▸ .of_sub h) ?_ hs hz ho
  rw [ha, PoolAccounting.sub_count h .running, if_neg hd.symm]
  exact le_refl _

theorem of_raise {d : Counter} (hp : p.raises = some d) (ha : sh'.acct = sh.acct.add d)
    (hs : sh'.state = sh.state) (hz : sh'.poolSize = sh.poolSize)
    (ho : sh'.observed = sh.observed) : Effect sh p sh' where
  gate := by rw [ha]; exact fun h => ⟨h, le_refl _⟩
  count := fun e => by
    rw [ha, PoolAccounting.add_count]
    by_cases he : e = d
    · exact Or.inr (he ▸ hp)
    · simp [he]
  running := Or.inl (by rw [ha, PoolAccounting.add_count]; exact Nat.le_add_right _ _)
  lifecycle := by rw [hs]
  live := by rw [hs]
  stored := by rw [hs]; exact id
  size := hz
  monitor := Or.inr (Or.inr hs)
  observed := Or.inl ho

theorem of_monitor (ha : sh'.acct = sh.acct) (hm : p.locks = true ∨ sh.locked = false)
    (hl : sh.state.lifecycle.rank ≤ sh'.state.lifecycle.rank)
    (hlive : sh'.state.liveWorkers ≤ sh.state.liveWorkers)
    (ht : sh.state.lifecycle ≠ .terminated → sh'.state.lifecycle ≠ .terminated)
    (hz : sh'.poolSize = sh.poolSize) (ho : sh'.observed = sh.observed) : Effect sh p sh' where
  gate := by rw [ha]; exact fun h => ⟨h, le_refl _⟩
  count := fun d => Or.inl (by rw [ha])
  running := Or.inl (by rw [ha])
  lifecycle := hl
  live := hlive
  stored := ht
  size := hz
  monitor := hm.imp_right Or.inl
  observed := Or.inl ho

end Effect

open Effect
variable {sh sh' : Shared} {p p' : Pc} {c : Outcome} {j : JobId}

theorem workerStep_effect {p : WorkerPc} (h : workerStep sh p = some (sh', p')) :
    Effect sh (.worker p) sh' := by
  cases p with
  | finishRunning j =>
    simp only [workerStep, Shared.lower] at h
    split at h <;> cases h
    · rename_i a ha
      have hc := PoolAccounting.Calms.of_sub ha
      exact ⟨hc.1, fun d => Or.inl (hc.2 d), Or.inr ⟨j, rfl⟩, le_refl _, le_refl _, id, rfl,
        Or.inr (Or.inr rfl), Or.inl rfl⟩
    · exact of_same rfl rfl rfl rfl
  | mark =>
    cases h
    exact of_monitor rfl (Or.inl rfl) (le_refl _) (le_refl _) id rfl rfl
  | drainMark =>
    cases h
    exact of_monitor rfl (Or.inl rfl) (le_refl _) (le_refl _) id rfl rfl
  | unmark again =>
    simp only [workerStep] at h
    split at h <;> cases h
    · exact of_monitor rfl (Or.inl rfl) (le_refl _) (le_refl _) id rfl rfl
    · exact of_same rfl rfl rfl rfl
  | exit =>
    simp only [workerStep] at h
    split at h
    · cases h
    · split at h <;> cases h
      · exact of_monitor rfl (Or.inr (Bool.eq_false_iff.mpr ‹_›)) (le_refl _) (Nat.sub_le _ _) id rfl rfl
      · exact of_same rfl rfl rfl rfl
  | _ =>
    simp only [workerStep, Shared.lock, Shared.withLock, Shared.lower] at h
    repeat' split at h
    all_goals first | (simp only [Option.map_some] at h; (repeat' split at h) <;> cases h) | cases h
    all_goals first
      | exact of_same rfl rfl rfl rfl
      | exact of_raise rfl rfl rfl rfl rfl
      | exact of_sub ‹_› (by decide) rfl rfl rfl rfl

theorem submitStep_effect {p : SubmitPc} (h : submitStep sh j c p = some (sh', p')) :
    Effect sh (.submit j p) sh' := by
  cases p with
  | enter =>
    simp only [submitStep] at h
    split at h <;> cases h
    · rename_i a ha
      have hc := PoolAccounting.Calms.of_tryEnter ha
      obtain ⟨g, -, rfl⟩ := Option.map_eq_some_iff.mp ha
      exact of_calm hc (le_refl _) rfl rfl rfl
    · exact of_same rfl rfl rfl rfl
  | reserve =>
    simp only [submitStep] at h
    split at h
    · rename_i ha
      obtain rfl := PoolAccounting.tryReserveBoundedSlot_eq ha
      cases h
      exact of_raise rfl rfl rfl rfl rfl
    · cases h
      exact of_same rfl rfl rfl rfl
  | leave result =>
    simp only [submitStep] at h
    split at h <;> cases h
    · rename_i a last ha
      have hc := PoolAccounting.Calms.of_leave ha
      obtain ⟨g, -, hg⟩ := Option.map_eq_some_iff.mp ha
      cases hg
      exact of_calm hc (le_refl _) rfl rfl rfl
    · exact of_same rfl rfl rfl rfl
  | _ =>
    simp only [submitStep, Shared.withLock, Shared.lower] at h
    repeat' split at h
    all_goals cases h
    all_goals first
      | exact of_same rfl rfl rfl rfl
      | exact of_raise rfl rfl rfl rfl rfl
      | exact of_sub ‹_› (by decide) rfl rfl rfl rfl

theorem stopStep_effect {p : StopPc} (h : stopStep sh p = some (sh', p')) : Effect sh (.stop p) sh' := by
  cases p with
  | close info =>
    cases h
    exact of_calm (.of_close _) (le_refl _) rfl rfl rfl
  | lockState info =>
    obtain ⟨s, hs, h⟩ := Option.map_eq_some_iff.mp h
    obtain ⟨hf, rfl⟩ := sh.lock_eq_some hs
    cases hl : sh.state.lifecycle <;> simp only [hl] at h <;> cases h
    · exact of_monitor rfl (Or.inr hf) (by simp [hl, Shared.setLifecycle, ExecutorServiceLifecycle.rank])
        (le_refl _) nofun rfl rfl
    · exact of_monitor rfl (Or.inr hf) (by simp [hl, Shared.setLifecycle, ExecutorServiceLifecycle.rank])
        (le_refl _) nofun rfl rfl
    · exact of_same rfl rfl rfl rfl
    · exact of_same rfl rfl rfl rfl
  | begin info begun jobs =>
    cases jobs with
    | nil =>
      cases h
      exact of_same rfl rfl rfl rfl
    | cons i rest =>
      simp only [stopStep, Shared.lower] at h
      split at h <;> cases h
      · exact of_sub ‹_› (by decide) rfl rfl rfl rfl
      · exact of_same rfl rfl rfl rfl
  | next jobs report =>
    cases jobs <;> cases h
    all_goals exact of_same rfl rfl rfl rfl
  | _ =>
    simp only [stopStep, Shared.lock, Shared.withLock] at h
    repeat' split at h
    all_goals cases h
    all_goals first
      | exact of_same rfl rfl rfl rfl
      | exact of_raise rfl rfl rfl rfl rfl

theorem cancelStep_effect {p : CancelPc} {k : CancelCaller} (h : cancelStep sh k p = some (sh', p')) :
    Effect sh (.cancel p k) sh' := by
  cases p with
  | done =>
    cases k <;> cases h
    all_goals exact of_same rfl rfl rfl rfl
  | _ =>
    simp only [cancelStep, Shared.withLock, Shared.lower] at h
    repeat' split at h
    all_goals cases h
    all_goals first
      | exact of_same rfl rfl rfl rfl
      | exact of_raise rfl rfl rfl rfl rfl
      | exact of_sub ‹_› (by decide) rfl rfl rfl rfl

theorem observeStep_effect {p : ObservePc} (h : observeStep sh c p = some (sh', p')) :
    Effect sh (.observe p) sh' := by
  cases p with
  | unlock o terminated =>
    cases o <;> cases h
    · exact ⟨fun h => ⟨h, le_refl _⟩, fun _ => Or.inl (le_refl _), Or.inl (le_refl _), le_refl _, le_refl _,
        id, rfl, Or.inl rfl, Or.inr ⟨terminated, rfl, rfl, rfl⟩⟩
    · exact of_same rfl rfl rfl rfl
    · exact of_same rfl rfl rfl rfl
  | _ =>
    simp only [observeStep, Shared.lock] at h
    repeat' split at h
    all_goals cases h
    all_goals exact of_same rfl rfl rfl rfl

theorem step_effect (h : step sh c p = some (sh', p')) : Effect sh p sh' := by
  cases p with
  | submit j p => exact submitStep_effect h
  | worker p => exact workerStep_effect h
  | shutdown p =>
    cases p with
    | close =>
      cases h
      exact of_calm (.of_close _) (le_refl _) rfl rfl rfl
    | lockState =>
      obtain ⟨s, hs, h⟩ := Option.map_eq_some_iff.mp h
      obtain ⟨hf, rfl⟩ := sh.withLock_eq_some hs
      cases h
      split
      · rename_i hrun
        exact of_monitor rfl (Or.inr hf)
          (by simp [hrun, Shared.notifyAll, Shared.setLifecycle, ExecutorServiceLifecycle.rank])
          (le_refl _) nofun rfl rfl
      · exact of_same rfl rfl rfl rfl
    | returned => cases h
  | stop p => exact stopStep_effect h
  | cancel p k => exact cancelStep_effect h
  | join p =>
    cases p
    all_goals simp only [step, joinStep, Shared.lock] at h
    all_goals repeat' split at h
    all_goals cases h
    all_goals exact of_same rfl rfl rfl rfl
  | observe p => exact observeStep_effect h
  | idle r k =>
    cases h
    exact of_same rfl rfl rfl rfl
  | panicked _ => cases h

end ThreadPools.Fixed
