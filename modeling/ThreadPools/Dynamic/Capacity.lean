import ThreadPools.Dynamic.Policy
import ThreadPools.Dynamic.Relief

/-! # Capacity notifications of the dynamic pool

While the pool is full no worker is registered, so a submission becomes admissible again
only through a released slot, a raised maximum or a worker that leaves. A released slot is
notified by the actor that released it.
-/
namespace ThreadPools.Dynamic
open Interleaving
open Move (call act)

variable {sh sh' : Shared} {p p' q : Pc} {ps rest : Multiset Pc} {c : Outcome} {j : JobId}

/-- A submission would neither start a worker nor obtain a slot. -/
def Shared.Full (sh : Shared) : Prop :=
  sh.state.corePoolSize ≤ sh.state.liveWorkers ∧ sh.state.liveWorkers ≠ 0 ∧
    sh.acct.tryReserveBoundedSlot.isNone ∧ sh.state.maximumPoolSize ≤ sh.state.liveWorkers

instance (sh : Shared) : Decidable sh.Full := inferInstanceAs (Decidable (_ ∧ _ ∧ _ ∧ _))

/-- The disjuncts of `reserve_submission_with_state_lock` that admit a submission. -/
def Shared.Admits (sh : Shared) (capacity : ℕ) : Prop :=
  sh.state.liveWorkers < sh.state.corePoolSize ∨ sh.state.liveWorkers = 0 ∨
    sh.acct.count .queueSlot < capacity ∨ sh.state.liveWorkers < sh.state.maximumPoolSize

instance (sh : Shared) (capacity : ℕ) : Decidable (sh.Admits capacity) :=
  inferInstanceAs (Decidable (_ ∨ _ ∨ _ ∨ _))

theorem Shared.Full.not_admits {capacity : ℕ} (hf : sh.Full) (hc : sh.acct.queueCapacity = some capacity) :
    ¬ sh.Admits capacity := by
  obtain ⟨hcore, hlive, hslot, hmax⟩ := hf
  have hcount : capacity ≤ sh.acct.count .queueSlot := by
    by_contra hlt
    simp [PoolAccounting.tryReserveBoundedSlot, hc, Nat.lt_of_not_le hlt] at hslot
  rintro (h | h | h | h)
  · exact absurd hcore (Nat.not_le_of_lt h)
  · exact hlive h
  · exact absurd hcount (Nat.not_le_of_lt h)
  · exact absurd hmax (Nat.not_le_of_lt h)

/-- In a running pool a submission is rejected as saturated exactly if the pool is full. -/
theorem Shared.full_iff (hl : sh.state.lifecycle = .running) :
    sh.Full ↔ step sh c (.submit j .checkState) = some (sh, .submit j .reserveSlot) ∧
      step sh c (.submit j .reserveSlot) = some (sh, .submit j (.rejectUnlock .saturated)) := by
  constructor
  · rintro ⟨hcore, hlive, hslot, hmax⟩
    refine ⟨?_, ?_⟩
    · simp [step, submitStep, hl, Nat.not_lt_of_le hcore, hlive]
    · simp [step, submitStep, Option.isNone_iff_eq_none.mp hslot, Nat.not_lt_of_le hmax]
  · rintro ⟨hcheck, hreserve⟩
    simp only [step, submitStep] at hcheck hreserve
    have hstate : ¬ sh.state.liveWorkers < sh.state.corePoolSize ∧ sh.state.liveWorkers ≠ 0 := by
      refine ⟨fun hcore => ?_, fun hlive => ?_⟩
      · simp [hl, hcore] at hcheck
      · simp [hl, hlive] at hcheck
    split at hreserve
    · simp at hreserve
    · rename_i hnone
      split at hreserve
      · simp at hreserve
      · exact ⟨Nat.le_of_not_lt hstate.1, hstate.2, by simp [hnone], Nat.le_of_not_lt ‹_›⟩

def Pc.released : Pc → Bool
  | .submit _ .rollbackNotify | .worker (.claimNotify _) | .cancel .notifyCapacity _ => true
  | _ => false

def Pc.spawning : Pc → Bool
  | .spawn .spawn _ | .spawn .rollback _ => true
  | _ => false

theorem released_notifies (h : step sh c p = some (sh', p')) (hp : p.released = true) :
    sh'.capacityTx = sh.capacityTx + 1 := by
  unfold Pc.released at hp
  split at hp
  all_goals cases hp
  all_goals cases h
  all_goals rfl

/-- A slot is released by somebody who notifies next. -/
theorem released_of_lowers (h : step sh c p = some (sh', p')) (hp : p.lowers = some .queueSlot)
    (hn : ∀ e, p' ≠ .panicked e) : p'.released = true := by
  unfold Pc.lowers at hp
  split at hp
  case h_1 | h_2 | h_3 =>
    simp only [step, submitStep, workerStep, cancelStep, Shared.lower] at h
    split at h <;> cases h
    · rfl
    · exact absurd rfl (hn _)
  all_goals cases hp

structure Heed (sh : Shared) (p : Pc) (sh' : Shared) (p' : Pc) : Prop where
  generation : sh.capacityTx ≤ sh'.capacityTx
  maximum : sh'.state.maximumPoolSize = sh.state.maximumPoolSize ∨
    p = .setter (.maximumPoolSize sh'.state.maximumPoolSize)
  spawning : p'.spawning = true → p.spawning = true ∨ sh.state.liveWorkers < sh'.state.liveWorkers
  reserve : ∀ j, p' = .submit j .reserveSlot →
    sh'.state.lifecycle = .running ∧ sh'.state.corePoolSize ≤ sh'.state.liveWorkers ∧ sh'.state.liveWorkers ≠ 0

namespace Heed

theorem of_other (hg : sh.capacityTx ≤ sh'.capacityTx) (hm : sh'.state.maximumPoolSize = sh.state.maximumPoolSize)
    (hs : p'.spawning = false) (hr : ∀ j, p' ≠ .submit j .reserveSlot) : Heed sh p sh' p' where
  generation := hg
  maximum := .inl hm
  spawning := fun h => nomatch hs.symm.trans h
  reserve := fun j h => absurd h (hr j)

theorem of_grown {k : SpawnCaller} (hg : sh'.capacityTx = sh.capacityTx)
    (hs : sh'.state = { sh.state with
      nextWorkerIndex := sh.state.nextWorkerIndex + 1, liveWorkers := sh.state.liveWorkers + 1 }) :
    Heed sh p sh' (.spawn .spawn k) where
  generation := Nat.le_of_eq hg.symm
  maximum := .inl (by rw [hs])
  spawning := fun _ => .inr (by rw [hs]; exact Nat.lt_succ_self _)
  reserve := nofun

theorem of_same (hg : sh'.capacityTx = sh.capacityTx) (hs : sh'.state = sh.state) (hp : p'.spawning = false)
    (hr : ∀ j, p' ≠ .submit j .reserveSlot) : Heed sh p sh' p' :=
  of_other (Nat.le_of_eq hg.symm) (by rw [hs]) hp hr

theorem of_notify (hg : sh'.capacityTx = sh.capacityTx + 1) (hs : sh'.state = sh.state) (hp : p'.spawning = false)
    (hr : ∀ j, p' ≠ .submit j .reserveSlot) : Heed sh p sh' p' :=
  of_other (hg ▸ Nat.le_succ _) (by rw [hs]) hp hr

end Heed

open Heed

theorem submitStep_heed {p : SubmitPc} (h : submitStep sh j c p = some (sh', p')) :
    Heed sh (.submit j p) sh' p' := by
  cases p with
  | checkState =>
    simp only [submitStep] at h
    repeat' split at h
    all_goals cases h
    · exact of_same rfl rfl rfl (by rintro _ ⟨⟩)
    · exact of_grown rfl rfl
    · exact of_grown rfl rfl
    · rename_i hrun hcore hlive
      exact ⟨Nat.le_refl _, .inl rfl, (by rintro ⟨⟩), fun _ _ => ⟨not_not.mp hrun, Nat.le_of_not_lt hcore, hlive⟩⟩
  | reserveSlot =>
    simp only [submitStep] at h
    repeat' split at h
    all_goals cases h
    · exact of_same rfl rfl rfl (by rintro _ ⟨⟩)
    · exact of_grown rfl rfl
    · exact of_same rfl rfl rfl (by rintro _ ⟨⟩)
  | leave result =>
    simp only [submitStep] at h
    split at h
    · rename_i a last _
      cases h
      cases last <;> exact of_same rfl rfl rfl (by rintro _ ⟨⟩)
    · cases h
      exact of_same rfl rfl rfl (by rintro _ ⟨⟩)
  | _ =>
    simp only [submitStep, Shared.lock, Shared.lockQueue, Shared.withLock, Shared.lower] at h
    repeat' split at h
    all_goals cases h
    all_goals first | exact of_same rfl rfl rfl (by rintro _ ⟨⟩) | exact of_notify rfl rfl rfl (by rintro _ ⟨⟩)

theorem workerStep_heed {p : WorkerPc} (h : workerStep sh c p = some (sh', p')) :
    Heed sh (.worker p) sh' p' := by
  cases p with
  | takePop =>
    simp only [workerStep] at h
    split at h
    · cases h
      exact of_same rfl rfl rfl (by rintro _ ⟨⟩)
    · split at h
      · rename_i hs
        obtain rfl := takeQueued_eq_some hs
        cases h
        exact of_same rfl rfl rfl (by rintro _ ⟨⟩)
      · cases h
        exact of_same rfl rfl rfl (by rintro _ ⟨⟩)
  | _ =>
    simp only [workerStep, Shared.lock, Shared.lockQueue, Shared.lower] at h
    repeat' split at h
    all_goals first | (simp only [Option.map_some] at h; (repeat' split at h) <;> cases h) | cases h
    all_goals first
      | exact of_same rfl rfl rfl (by rintro _ ⟨⟩)
      | exact of_notify rfl rfl rfl (by rintro _ ⟨⟩)
      | exact of_other (Nat.le_refl _) rfl rfl (by rintro _ ⟨⟩)

theorem stopStep_heed {p : StopPc} (h : stopStep sh p = some (sh', p')) : Heed sh (.stop p) sh' p' := by
  cases p with
  | drain running jobs =>
    simp only [stopStep] at h
    split at h
    · cases h
      exact of_same rfl rfl rfl (by rintro _ ⟨⟩)
    · split at h
      · rename_i hs
        obtain rfl := takeQueued_eq_some hs
        cases h
        exact of_same rfl rfl rfl (by rintro _ ⟨⟩)
      · cases h
        exact of_same rfl rfl rfl (by rintro _ ⟨⟩)
  | next jobs report =>
    cases jobs <;> cases h
    all_goals exact of_same rfl rfl rfl (by rintro _ ⟨⟩)
  | lockState =>
    obtain ⟨s, hs, h⟩ := Option.map_eq_some_iff.mp h
    obtain ⟨-, rfl⟩ := sh.lock_eq_some hs
    cases hl : sh.state.lifecycle <;> simp only [hl] at h <;> cases h
    all_goals exact of_other (Nat.le_refl _) rfl rfl (by rintro _ ⟨⟩)
  | _ =>
    simp only [stopStep, Shared.lock, Shared.lockQueue, Shared.withLock, Shared.lower] at h
    repeat' split at h
    all_goals cases h
    all_goals first | exact of_same rfl rfl rfl (by rintro _ ⟨⟩) | exact of_notify rfl rfl rfl (by rintro _ ⟨⟩)

theorem setterStep_heed {p : SetterPc} (h : setterStep sh p = some (sh', p')) : Heed sh (.setter p) sh' p' := by
  cases p with
  | maximumPoolSize n =>
    simp only [setterStep] at h
    repeat' split at h
    all_goals cases h
    · exact of_same rfl rfl rfl (by rintro _ ⟨⟩)
    · exact of_same rfl rfl rfl (by rintro _ ⟨⟩)
    · exact ⟨Nat.le_refl _, .inr rfl, (by rintro ⟨⟩), (by rintro _ ⟨⟩)⟩
  | _ =>
    simp only [setterStep, Shared.withLock] at h
    repeat' split at h
    all_goals cases h
    all_goals first | exact of_same rfl rfl rfl (by rintro _ ⟨⟩) | exact of_other (Nat.le_refl _) rfl rfl (by rintro _ ⟨⟩)

theorem TermCaller.refuted_heed (k : TermCaller) (sh : Shared) : Heed sh p sh k.refuted := by
  cases k with
  | notify k => cases k <;> exact of_same rfl rfl rfl nofun
  | observer o => cases o <;> exact of_same rfl rfl rfl nofun
  | _ => exact of_same rfl rfl rfl nofun

theorem IdleCaller.decided_heed (k : IdleCaller) (sh : Shared) (idle : Bool) : Heed sh p sh (k.decided idle) := by
  cases idle with
  | false =>
    cases k with
    | term k => exact k.refuted_heed sh
    | _ => exact of_same rfl rfl rfl nofun
  | true =>
    cases k with
    | term k =>
      cases k with
      | observer o => cases o <;> exact of_same rfl rfl rfl nofun
      | _ => exact of_same rfl rfl rfl nofun
    | _ => exact of_same rfl rfl rfl nofun

theorem step_heed (h : step sh c p = some (sh', p')) : Heed sh p sh' p' := by
  cases p with
  | submit j p => exact submitStep_heed h
  | worker p => exact workerStep_heed h
  | stop p => exact stopStep_heed h
  | setter p => exact setterStep_heed h
  | spawn p k =>
    cases p with
    | spawn =>
      cases c <;> cases h
      · exact of_same rfl rfl rfl (by rintro _ ⟨⟩)
      · exact ⟨Nat.le_refl _, .inl rfl, fun _ => .inl rfl, (by rintro _ ⟨⟩)⟩
    | _ =>
      cases k <;> simp only [step, spawnStep] at h
      all_goals repeat' split at h
      all_goals cases h
      all_goals exact of_other (Nat.le_refl _) rfl rfl (by rintro _ ⟨⟩)
  | prestart =>
    obtain ⟨s, hs, h⟩ := Option.map_eq_some_iff.mp h
    obtain ⟨-, rfl⟩ := sh.lock_eq_some hs
    repeat' split at h
    all_goals cases h
    · exact of_same rfl rfl rfl (by rintro _ ⟨⟩)
    · exact of_same rfl rfl rfl (by rintro _ ⟨⟩)
    · exact of_grown rfl rfl
  | shutdown p =>
    cases p with
    | lockState =>
      obtain ⟨s, hs, h⟩ := Option.map_eq_some_iff.mp h
      obtain ⟨-, rfl⟩ := sh.lock_eq_some hs
      split at h <;> cases h
      all_goals exact of_other (Nat.le_refl _) rfl rfl (by rintro _ ⟨⟩)
    | _ =>
      cases h
      all_goals first | exact of_same rfl rfl rfl (by rintro _ ⟨⟩) | exact of_notify rfl rfl rfl (by rintro _ ⟨⟩)
  | ticket j p =>
    cases p with
    | remove =>
      simp only [step, ticketStep] at h
      split at h
      · split at h
        · rename_i hs
          obtain rfl := takeQueued_eq_some hs
          cases h
          exact of_same rfl rfl rfl (by rintro _ ⟨⟩)
        · cases h
          exact of_same rfl rfl rfl (by rintro _ ⟨⟩)
      · cases h
        exact of_same rfl rfl rfl (by rintro _ ⟨⟩)
    | _ =>
      simp only [step, ticketStep, Shared.lockQueue, Shared.lower] at h
      repeat' split at h
      all_goals cases h
      all_goals exact of_same rfl rfl rfl (by rintro _ ⟨⟩)
  | cancel p k =>
    cases p <;> cases k <;> simp only [step, cancelStep, Shared.lower] at h
    all_goals repeat' split at h
    all_goals cases h
    all_goals first | exact of_same rfl rfl rfl (by rintro _ ⟨⟩) | exact of_notify rfl rfl rfl (by rintro _ ⟨⟩)
  | join p =>
    cases p
    all_goals simp only [step, joinStep, Shared.lock] at h
    all_goals repeat' split at h
    all_goals cases h
    all_goals exact of_same rfl rfl rfl (by rintro _ ⟨⟩)
  | observe p =>
    cases p with
    | unlock o b =>
      cases o <;> cases h
      all_goals exact of_same rfl rfl rfl (by rintro _ ⟨⟩)
    | _ =>
      simp only [step, observeStep, Shared.lock] at h
      repeat' split at h
      all_goals cases h
      all_goals exact of_same rfl rfl rfl (by rintro _ ⟨⟩)
  | prestartUnlock =>
    cases h
    exact of_same rfl rfl rfl (by rintro _ ⟨⟩)
  | notifyLock k =>
    obtain ⟨s, hs, h⟩ := Option.map_eq_some_iff.mp h
    obtain ⟨-, rfl⟩ := sh.lock_eq_some hs
    cases h
    exact of_same rfl rfl rfl (by rintro _ ⟨⟩)
  | notifyAll k =>
    cases h
    cases k <;> exact of_same rfl rfl rfl (by rintro _ ⟨⟩)
  | term k =>
    cases h
    split
    · exact of_same rfl rfl rfl (by rintro _ ⟨⟩)
    · exact k.refuted_heed sh
  | publish k =>
    cases h
    cases k with
    | notify k => cases k <;> exact of_same rfl rfl rfl (by rintro _ ⟨⟩)
    | observer o => cases o <;> exact of_same rfl rfl rfl (by rintro _ ⟨⟩)
    | _ => exact of_same rfl rfl rfl (by rintro _ ⟨⟩)
  | idle r k =>
    cases h
    unfold idleStep
    repeat' split
    · exact of_same rfl rfl rfl (by rintro _ ⟨⟩)
    · exact k.decided_heed sh true
    · exact k.decided_heed sh false
  | prestarted _ => cases h
  | panicked _ => cases h

/-- Raises the maximum above the number of workers, or retires a worker at the maximum. -/
def Pc.enables (sh : Shared) : Pc → Bool
  | .setter (.maximumPoolSize n) => decide (sh.state.liveWorkers < n)
  | .worker .unregister => decide (sh.state.liveWorkers ≤ sh.state.maximumPoolSize)
  | _ => false

/-- While the pool is running and full the maximum is not raised above the number of workers
and no worker retires at the maximum. -/
def KeepsFull : Machine.Guard Shared Pc Outcome := fun sh _ p _ =>
  sh.state.lifecycle = .running → sh.Full → p.enables sh = false

instance (sh : Shared) (ps : Multiset Pc) (p : Pc) (c : Outcome) : Decidable (KeepsFull sh ps p c) :=
  inferInstanceAs (Decidable (_ → _ → _))

/-- With valid limits the maximum and the bounded counter decide. -/
theorem Sized.full {config : ThreadPoolConfig} (hz : Sized config sh)
    (hs : sh.acct.tryReserveBoundedSlot.isNone) (hm : sh.state.maximumPoolSize ≤ sh.state.liveWorkers) : sh.Full := by
  have hmax := hz.maximum
  exact ⟨hz.core.trans hm, by omega, hs, hm⟩

theorem Shared.Full.live_le (hf : sh.Full) (h : Resized sh sh') :
    sh'.state.liveWorkers ≤ sh.state.liveWorkers := by
  obtain ⟨hcore, hlive, -, hmax⟩ := hf
  cases h with
  | kept _ hl => exact hl
  | core n _ _ hl => exact Nat.le_of_eq hl
  | maximum n _ _ _ hl => exact Nat.le_of_eq hl
  | grown _ _ hw =>
    rcases hw with hw | hw | hw
    · exact absurd hcore (Nat.not_le_of_lt hw)
    · exact absurd hw hlive
    · exact absurd hmax (Nat.not_le_of_lt hw.1)

/-- The bounded counter goes on to refuse as long as no slot is released. -/
theorem refusal_kept {config : ThreadPoolConfig} (hz : Sized config sh) (hz' : Sized config sh')
    (hs : sh.acct.tryReserveBoundedSlot.isNone)
    (hc : sh.acct.count .queueSlot ≤ sh'.acct.count .queueSlot) : sh'.acct.tryReserveBoundedSlot.isNone := by
  have hq := hz'.capacity.trans hz.capacity.symm
  cases hcap : sh.acct.queueCapacity with
  | none => simp [PoolAccounting.tryReserveBoundedSlot, hcap] at hs
  | some capacity =>
    have hle : capacity ≤ sh.acct.count .queueSlot := by
      by_contra hlt
      simp [PoolAccounting.tryReserveBoundedSlot, hcap, Nat.lt_of_not_le hlt] at hs
    simp [PoolAccounting.tryReserveBoundedSlot, hq, hcap, hle.trans hc]

theorem Shared.Full.maximum_le (hf : sh.Full) (hok : p.enables sh = false) (hp : p.spawning = false)
    (h : step sh c p = some (sh', p')) (hn : ∀ e, p' ≠ .panicked e) :
    sh'.state.maximumPoolSize ≤ sh'.state.liveWorkers := by
  have heed := step_heed h
  have hmax := hf.2.2.2
  rcases (step_relief h).live with hle | rfl | ⟨k, rfl⟩
  · rcases heed.maximum with hm | rfl
    · rw [hm]
      exact hmax.trans hle
    · have hraised : ¬ sh.state.liveWorkers < sh'.state.maximumPoolSize := of_decide_eq_false hok
      exact (Nat.le_of_not_lt hraised).trans hle
  · have hover : ¬ sh.state.liveWorkers ≤ sh.state.maximumPoolSize := of_decide_eq_false hok
    simp only [step, workerStep] at h
    split at h <;> cases h
    · simp only
      omega
    · exact absurd rfl (hn _)
  · cases hp

theorem Shared.Full.step {config : ThreadPoolConfig} (hf : sh.Full) (hz : Sized config sh)
    (hok : p.enables sh = false) (hp : p.spawning = false) (h : step sh c p = some (sh', p'))
    (hn : ∀ e, p' ≠ .panicked e) : p'.released = true ∨ sh'.Full ∧ p'.spawning = false := by
  rcases (step_relief h).count .queueSlot with hcount | hlower
  · have hz' := hz.step (step_resized h)
    have hfull := hz'.full (refusal_kept hz hz' hf.2.2.1 hcount) (hf.maximum_le hok hp h hn)
    refine .inr ⟨hfull, ?_⟩
    cases hs : p'.spawning with
    | false => rfl
    | true =>
      rcases (step_heed h).spawning hs with hold | hgrown
      · exact absurd hold (by simp [hp])
      · exact absurd (hf.live_le (step_resized h)) (Nat.not_le_of_lt hgrown)
  · exact .inl (released_of_lowers h hlower hn)

/-- Since generation `g` a notification has been sent, or one is pending, or a submission is
still refused. -/
structure Watched (g : ℕ) (sh : Shared) (ps : Multiset Pc) : Prop where
  generation : g ≤ sh.capacityTx
  heeded : g < sh.capacityTx ∨ (∃ q ∈ ps, q.released = true) ∨
    (sh.state.lifecycle = .running → sh.Full ∧ ∀ q ∈ ps, q.spawning = false)

theorem lifecycle_running_of (h : Effect sh p sh') (hl : sh'.state.lifecycle = .running) :
    sh.state.lifecycle = .running := by
  have hr := h.lifecycle
  rw [hl] at hr
  cases hlife : sh.state.lifecycle <;> simp [hlife, ExecutorServiceLifecycle.rank] at hr ⊢

theorem Watched.step {config : ThreadPoolConfig} {g : ℕ} (hw : Watched g sh (p ::ₘ rest)) (hz : Sized config sh)
    (hok : KeepsFull sh (p ::ₘ rest) p c) (h : Dynamic.step sh c p = some (sh', p'))
    (hn : ∀ e, p' ≠ .panicked e) : Watched g sh' (p' ::ₘ (↑(spawned p c) + rest)) := by
  have hg := (step_heed h).generation
  refine ⟨hw.generation.trans hg, ?_⟩
  rcases hw.heeded with hlt | ⟨q, hq, hr⟩ | hfull
  · exact .inl (Nat.lt_of_lt_of_le hlt hg)
  · rcases Multiset.mem_cons.mp hq with rfl | hq
    · have hnext := released_notifies h hr
      have hle := hw.generation
      exact .inl (by omega)
    · exact .inr (.inl ⟨q, Multiset.mem_cons_of_mem (Multiset.mem_add.mpr (.inr hq)), hr⟩)
  · right
    by_cases hrun : sh'.state.lifecycle = .running
    · have hold := lifecycle_running_of (step_effect h) hrun
      obtain ⟨hf, hs⟩ := hfull hold
      rcases hf.step hz (hok hold hf) (hs p (Multiset.mem_cons_self p rest)) h hn with hr | ⟨hf', hs'⟩
      · exact .inl ⟨p', Multiset.mem_cons_self _ _, hr⟩
      · refine .inr fun _ => ⟨hf', fun q hq => ?_⟩
        rcases Multiset.mem_cons.mp hq with rfl | hq
        · exact hs'
        · rcases Multiset.mem_add.mp hq with hq | hq
          · rw [Consistent.spawned_fresh (Multiset.mem_coe.mp hq)]
            rfl
          · exact hs q (Multiset.mem_cons_of_mem hq)
    · exact .inr fun hl => absurd hl hrun

def Pc.Checked (sh : Shared) (p : Pc) : Prop :=
  ∀ j, p = .submit j .reserveSlot → sh.state.lifecycle = .running ∧
    sh.state.corePoolSize ≤ sh.state.liveWorkers ∧ sh.state.liveWorkers ≠ 0

section
variable {config : ThreadPoolConfig} {tickets : JobId → Bool} {s t u : State Shared Pc} {i : ℕ}

theorem checked_of_run (h : machine.Run Machine.free (init config tickets) t) :
    ∀ p ∈ t.actors, p.Checked t.shared := by
  refine known_along (K := fun sh p => p.Checked sh) .refl ?_ ?_ ?_ ?_ h (List.forall_mem_nil _)
  · exact fun sh p rest c sh' p' _ _ _ hm => (step_heed hm).reserve
  · intro sh p rest c sh' p' q inv hq hk _ hm j hj
    have hs := (state_frame hq (by rw [hj]; rfl) (step_effect hm) inv.gauged).2
    rw [hs]
    exact hk j hj
  · exact fun _ _ => nofun
  · intro sh ps op sh' p _ hm
    refine ⟨fun j hj => ?_, fun q _ hk j hj => ?_⟩
    · subst hj
      cases op <;> simp only [invoke] at hm <;> (repeat' split at hm) <;> cases hm
    · have hs := hk j hj
      rw [invoke_same hm]
      exact hs

structure RejectsSaturated (i : ℕ) (j : JobId) (s t : State Shared Pc) : Prop where
  follows : machine.Follows Machine.free s t
  reserve : s.actors[i]? = some (.submit j .reserveSlot)
  reject : t.actors[i]? = some (.submit j (.rejectUnlock .saturated))

/-- The pool is full when a submission is rejected. -/
theorem RejectsSaturated.watched (h : RejectsSaturated i j s t)
    (hs : machine.Run Machine.free (init config tickets) s) :
    Watched t.shared.capacityTx t.shared t.actors := by
  have hrun := hs.tail h.follows
  have inv := Consistent.of_free_run hrun
  obtain ⟨-, hcore, hlive⟩ := checked_of_run hs _ (List.mem_of_getElem? h.reserve) j rfl
  refine ⟨Nat.le_refl _, .inr (.inr fun _ => ⟨?_, ?_⟩)⟩
  · rcases h.follows.moves h.reserve with hstay | ⟨c, r, hr, hsh, hr'⟩
    · cases h.reject.symm.trans hstay
    · obtain ⟨x, hx, he⟩ := Option.map_eq_some_iff.mp hr
      cases he
      have hx' : x.2 = .submit j (.rejectUnlock .saturated) := Option.some.inj (hr'.symm.trans h.reject)
      simp only [step, submitStep] at hx
      split at hx
      · cases hx
        cases hx'
      · rename_i hnone
        split at hx <;> cases hx
        · cases hx'
        · rename_i hmax
          rw [hsh]
          exact ⟨hcore, hlive, by simp [hnone], Nat.le_of_not_lt hmax⟩
  · -- The one who rejects holds the monitor, which every spawn needs.
    intro q hq
    obtain ⟨rest, hrest⟩ := Multiset.exists_cons_of_mem (Multiset.mem_coe.mpr (List.mem_of_getElem? h.reject))
    have hg := inv.gauged
    rw [hrest] at hq hg
    rcases Multiset.mem_cons.mp hq with rfl | hq
    · rfl
    · have hl := hg.exclusive rfl q hq
      cases q with
      | spawn p k => cases hl
      | _ => rfl

/-- Once a submission was rejected as saturated, a later state that would admit it has been
notified, or whoever released a slot has still to notify. -/
theorem capacity_notified {capacity : ℕ} (hs : machine.Run Machine.free (init config tickets) s)
    (hr : RejectsSaturated i j s t) (hu : machine.Run KeepsFull t u) (hl : u.shared.state.lifecycle = .running)
    (hc : config.queueCapacity = some capacity) (ha : u.shared.Admits capacity) :
    t.shared.capacityTx < u.shared.capacityTx ∨ ∃ p ∈ u.actors, p.released = true := by
  have hrun := hs.tail hr.follows
  have hw : Watched t.shared.capacityTx u.shared u.actors := by
    refine induction_along (I := fun sh ps => Consistent False False sh ps ∧ Sized config sh)
      (J := Watched t.shared.capacityTx) ?_ ?_ ?_ hu (hr.watched hs)
    · exact fun v hv => ⟨Consistent.of_free_run (hrun.trans hv.free), sized_of_run (hrun.trans hv.free)⟩
    · exact fun sh p rest c sh' p' inv hw hok hm => hw.step inv.2 hok hm (inv.1.sound_step hm)
    · intro sh ps op sh' p _ hw hm
      have hsh := invoke_same hm
      refine ⟨by rw [hsh]; exact hw.generation, ?_⟩
      rcases hw.heeded with hlt | ⟨q, hq, hr⟩ | hfull
      · exact .inl (by rw [hsh]; exact hlt)
      · exact .inr (.inl ⟨q, Multiset.mem_cons_of_mem hq, hr⟩)
      · refine .inr (.inr ?_)
        rw [hsh]
        refine fun hl => ⟨(hfull hl).1, fun q hq => ?_⟩
        rcases Multiset.mem_cons.mp hq with rfl | hq
        · cases op <;> simp only [invoke] at hm <;> (repeat' split at hm) <;> cases hm <;> rfl
        · exact (hfull hl).2 q hq
  rcases hw.heeded with hlt | ⟨q, hq, hr⟩ | hfull
  · exact .inl hlt
  · exact .inr ⟨q, Multiset.mem_coe.mp hq, hr⟩
  · have hcap := (sized_of_run (hrun.trans hu.free)).capacity.trans hc
    exact absurd ha ((hfull hl).1.not_admits hcap)

end

/-- A run that is executed up to a rejection and on from it. -/
theorem exec_rejects (config : ThreadPoolConfig) (tickets : JobId → Bool) (ok : Machine.Guard Shared Pc Outcome)
    [∀ sh ps p c, Decidable (ok sh ps p c)] (i : ℕ) (j : JobId) (ms ms' : List (Move Outcome Op))
    (f : State Shared Pc → State Shared Pc → Bool)
    (h : ((machine.exec Machine.free (init config tickets) ms).bind fun s =>
      (machine.next Machine.free s (.act i .ok)).bind fun t => (machine.exec ok t ms').map fun u =>
        (s.actors[i]?, t.actors[i]?, f t u)) =
      some (some (.submit j .reserveSlot), some (.submit j (.rejectUnlock .saturated)), true)) :
    ∃ s t u, machine.Run Machine.free (init config tickets) s ∧ RejectsSaturated i j s t ∧
      machine.Run ok t u ∧ f t u = true := by
  obtain ⟨s, hs, h⟩ := Option.bind_eq_some_iff.mp h
  obtain ⟨t, ht, h⟩ := Option.bind_eq_some_iff.mp h
  obtain ⟨u, hu, h⟩ := Option.map_eq_some_iff.mp h
  simp only [Prod.mk.injEq] at h
  obtain ⟨hi, hj, hf⟩ := h
  exact ⟨s, t, u, machine.exec_run hs, ⟨machine.next_follows ht, hi, hj⟩, machine.exec_run hu, hf⟩

def tightPool : ThreadPoolConfig where
  corePoolSize := 1
  maximumPoolSize := 1
  queueCapacity := some 1
  keepAlive := 1
  allowCoreThreadTimeout := true
  maximumPoolSize_pos := Nat.one_pos
  corePoolSize_le := Nat.one_pos
  queueCapacity_pos := oneSlot_pos
  keepAlive_pos := Nat.one_pos

/-- The worker runs job 0 and job 1, which has a ticket, is queued. -/
def fullSchedule : List (Move Outcome Op) :=
  call (Op.submit 0 0) :: (turns 0 19 Outcome.ok ++ turns 1 10 Outcome.ok) ++
    call (Op.submit 1 0) :: turns 2 17 Outcome.ok

/-- Job 2 is rejected; the worker then claims job 1 and is about to notify. -/
theorem capacity_notified_claim : ∃ s t u,
    machine.Run Machine.free (init tightPool fun j => j == 1) s ∧ RejectsSaturated 3 2 s t ∧
      machine.Run KeepsFull t u ∧ u.shared.Admits 1 ∧
      (t.shared.capacityTx < u.shared.capacityTx ∨ ∃ p ∈ u.actors, p.released = true) := by
  obtain ⟨s, t, u, hs, hr, hu, h⟩ := exec_rejects tightPool (fun j => j == 1) KeepsFull 3 2
    (fullSchedule ++ call (Op.submit 2 0) :: turns 3 3 Outcome.ok)
    (turns 3 5 Outcome.ok ++ turns 1 13 Outcome.ok)
    (fun _ u => decide (u.shared.state.lifecycle = .running ∧ u.shared.Admits 1)) (by decide)
  obtain ⟨hl, ha⟩ := of_decide_eq_true h
  exact ⟨s, t, u, hs, hr, hu, ha, capacity_notified hs hr hu hl rfl ha⟩

/-- The pool admits a submission again, no notification was sent since the rejection and
nobody is about to send one. -/
def Unnotified (t u : State Shared Pc) : Prop :=
  u.shared.state.lifecycle = .running ∧ u.shared.Admits 1 ∧ u.shared.capacityTx = t.shared.capacityTx ∧
    ∀ p ∈ u.actors, p.released = false

instance (t u : State Shared Pc) : Decidable (Unnotified t u) := inferInstanceAs (Decidable (_ ∧ _ ∧ _ ∧ _))

/-- Job 2 is rejected and nobody notifies when the maximum is raised, or when the only worker
times out while the cancellation of job 1 holds the slot. -/
theorem capacity_unnotified :
    (∃ s t u, machine.Run Machine.free (init tightPool fun j => j == 1) s ∧ RejectsSaturated 3 2 s t ∧
      machine.Run Machine.free t u ∧ Unnotified t u) ∧
    ∃ s t u, machine.Run Machine.free (init tightPool fun j => j == 1) s ∧ RejectsSaturated 4 2 s t ∧
      machine.Run Machine.free t u ∧ Unnotified t u := by
  constructor
  · obtain ⟨s, t, u, hs, hr, hu, h⟩ := exec_rejects tightPool (fun j => j == 1) Machine.free 3 2
      (fullSchedule ++ call (Op.submit 2 0) :: turns 3 3 Outcome.ok)
      (turns 3 5 Outcome.ok ++ [call (Op.setMaximumPoolSize 2), act 4 Outcome.ok])
      (fun t u => decide (Unnotified t u)) (by decide)
    exact ⟨s, t, u, hs, hr, hu, of_decide_eq_true h⟩
  · obtain ⟨s, t, u, hs, hr, hu, h⟩ := exec_rejects tightPool (fun j => j == 1) Machine.free 4 2
      (fullSchedule ++ call (Op.cancelQueued 1 1) :: (turns 3 7 Outcome.ok ++ turns 1 17 Outcome.ok) ++
        call (Op.submit 2 0) :: turns 4 3 Outcome.ok)
      (turns 4 5 Outcome.ok ++ act 1 Outcome.err :: turns 1 6 Outcome.ok)
      (fun t u => decide (Unnotified t u)) (by decide)
    exact ⟨s, t, u, hs, hr, hu, of_decide_eq_true h⟩

end ThreadPools.Dynamic
