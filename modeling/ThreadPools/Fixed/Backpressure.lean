import ThreadPools.Fixed.Calls

/-! # Queue slots of the fixed pool

Every slot is obtained from the bounded counter.
-/
namespace ThreadPools.Fixed
open Interleaving

variable {sh sh' : Shared} {p p' : Pc} {c : Outcome} {config : FixedThreadPoolConfig}

theorem step_capacity (h : step sh c p = some (sh', p')) : sh'.acct.queueCapacity = sh.acct.queueCapacity := by
  cases p with
  | submit j p =>
    cases p with
    | reserve =>
      simp only [step, submitStep] at h
      split at h
      · rename_i ha
        obtain rfl := PoolAccounting.tryReserveBoundedSlot_eq ha
        cases h
        rfl
      · cases h
        rfl
    | _ =>
      simp only [step, submitStep, Shared.withLock, Shared.lower] at h
      repeat' split at h
      all_goals cases h
      all_goals first
        | rfl
        | exact PoolAccounting.sub_capacity ‹_›
        | exact PoolAccounting.tryEnter_capacity ‹_›
        | exact PoolAccounting.leave_capacity ‹_›
  | worker p =>
    cases p
    all_goals simp only [step, workerStep, Shared.lock, Shared.withLock, Shared.lower] at h
    all_goals repeat' split at h
    all_goals first | (simp only [Option.map_some] at h; (repeat' split at h) <;> cases h) | cases h
    all_goals first | rfl | exact PoolAccounting.sub_capacity ‹_›
  | shutdown p =>
    cases p with
    | lockState =>
      obtain ⟨s, hs, h⟩ := Option.map_eq_some_iff.mp h
      obtain ⟨-, rfl⟩ := sh.withLock_eq_some hs
      cases h
      split <;> rfl
    | _ =>
      cases h
      all_goals rfl
  | stop p =>
    cases p with
    | lockState info =>
      obtain ⟨s, hs, h⟩ := Option.map_eq_some_iff.mp h
      obtain ⟨-, rfl⟩ := sh.lock_eq_some hs
      cases hl : sh.state.lifecycle <;> simp only [hl] at h <;> cases h
      all_goals rfl
    | _ =>
      simp only [step, stopStep, Shared.lock, Shared.withLock, Shared.lower] at h
      repeat' split at h
      all_goals cases h
      all_goals first | rfl | exact PoolAccounting.sub_capacity ‹_›
  | cancel p k =>
    cases p <;> cases k <;> simp only [step, cancelStep, Shared.withLock, Shared.lower] at h
    all_goals repeat' split at h
    all_goals cases h
    all_goals first | rfl | exact PoolAccounting.sub_capacity ‹_›
  | join p =>
    cases p
    all_goals simp only [step, joinStep, Shared.lock] at h
    all_goals repeat' split at h
    all_goals cases h
    all_goals rfl
  | observe p =>
    cases p with
    | unlock o terminated =>
      cases o <;> cases h
      all_goals rfl
    | _ =>
      simp only [step, observeStep, Shared.lock] at h
      repeat' split at h
      all_goals cases h
      all_goals rfl
  | idle r k =>
    cases h
    rfl
  | panicked _ => cases h

structure WithinCapacity (config : FixedThreadPoolConfig) (sh : Shared) : Prop where
  capacity : sh.acct.queueCapacity = config.queueCapacity
  slots : ∀ capacity, config.queueCapacity = some capacity → sh.acct.count .queueSlot ≤ capacity

theorem WithinCapacity.step (hw : WithinCapacity config sh) (h : Fixed.step sh c p = some (sh', p')) :
    WithinCapacity config sh' := by
  refine ⟨(step_capacity h).trans hw.capacity, fun capacity hc => ?_⟩
  have hold := hw.slots capacity hc
  rcases (step_effect h).count .queueSlot with hle | hr
  · exact hle.trans hold
  unfold Pc.raises at hr
  split at hr
  case h_1 j =>
    simp only [Fixed.step, submitStep] at h
    split at h <;> cases h
    · exact PoolAccounting.tryReserveBoundedSlot_le ‹_› (hw.capacity.trans hc)
    · exact hold
  all_goals cases hr

theorem within_of_run {t : State Shared Pc} (h : machine.Run Machine.free (init config) t) :
    WithinCapacity config t.shared := by
  refine invariant_along (J := fun sh _ => WithinCapacity config sh) .refl ?_ ?_ h ?_
  · intro sh p rest c sh' p' _ hw _ hm
    exact hw.step hm
  · intro sh ps op sh' p _ hw hm
    rw [invoke_same hm]
    exact ⟨hw.capacity, hw.slots⟩
  · exact ⟨rfl, fun capacity _ => Nat.zero_le capacity⟩

def slotHolders (sh : Shared) (ps : Multiset Pc) : ℕ :=
  Multiset.card ((book sh ps).filter fun e => Phase.weight .queueSlot e.2 = 1)

end ThreadPools.Fixed
