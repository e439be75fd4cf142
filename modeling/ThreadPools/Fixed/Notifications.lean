import ThreadPools.Fixed.Calls
import ThreadPools.Fixed.Quiescence
import ThreadPools.Interleaving.Notification

/-! # Lifecycle notifications of the fixed pool -/
namespace ThreadPools.Fixed
open Interleaving

def Pc.lowers : Pc → Option Counter
  | .submit _ .rollback | .worker (.claimSlot _) | .cancel .subSlot _ => some .queueSlot
  | .worker (.claimQueued _) | .worker (.withdraw _) | .stop (.begin _ _ _) => some .queued
  | .worker (.finishRunning _) => some .running
  | .cancel .subCancelling _ => some .cancelling
  | _ => none

structure Relief (sh : Shared) (p : Pc) (sh' : Shared) (p' : Pc) : Prop where
  inflight : sh.acct.inflightCount ≤ sh'.acct.inflightCount ∨ ∃ j result, p = .submit j (.leave result) ∧
    (sh'.acct.inflightCount = 0 → p' = .submit j (.departGate result))
  count : ∀ d, sh.acct.count d ≤ sh'.acct.count d ∨ p.lowers = some d
  lifecycle : sh'.state.lifecycle = sh.state.lifecycle ∨ p = .shutdown .lockState ∨
    ∃ info, p = .stop (.lockState info)
  live : sh.state.liveWorkers ≤ sh'.state.liveWorkers ∨ p = .worker .exit
  epoch : sh.epoch ≤ sh'.epoch

namespace Relief
variable {sh sh' : Shared} {p p' : Pc}

theorem of_state (ha : sh'.acct = sh.acct)
    (hl : sh'.state.lifecycle = sh.state.lifecycle ∨ p = .shutdown .lockState ∨ ∃ info, p = .stop (.lockState info))
    (hw : sh.state.liveWorkers ≤ sh'.state.liveWorkers ∨ p = .worker .exit)
    (he : sh.epoch ≤ sh'.epoch) : Relief sh p sh' p' :=
  ⟨Or.inl (by rw [ha]), fun _ => Or.inl (by rw [ha]), hl, hw, he⟩

theorem of_same (ha : sh'.acct = sh.acct) (hs : sh'.state = sh.state) (he : sh.epoch ≤ sh'.epoch) :
    Relief sh p sh' p' := of_state ha (Or.inl (by rw [hs])) (Or.inl (by rw [hs])) he

theorem of_acct (hi : sh.acct.inflightCount ≤ sh'.acct.inflightCount ∨ ∃ j result, p = .submit j (.leave result) ∧
      (sh'.acct.inflightCount = 0 → p' = .submit j (.departGate result)))
    (hc : ∀ d, sh.acct.count d ≤ sh'.acct.count d ∨ p.lowers = some d)
    (hs : sh'.state = sh.state) (he : sh'.epoch = sh.epoch) : Relief sh p sh' p' :=
  ⟨hi, hc, Or.inl (by rw [hs]), Or.inl (by rw [hs]), by rw [he]⟩

theorem of_raise {d : Counter} (ha : sh'.acct = sh.acct.add d) (hs : sh'.state = sh.state)
    (he : sh'.epoch = sh.epoch) : Relief sh p sh' p' := by
  refine of_acct (Or.inl ?_) (fun e => Or.inl ?_) hs he
  · rw [ha]
    exact Nat.le_refl _
  · rw [ha, PoolAccounting.add_count]
    omega

theorem of_lower {d : Counter} {a : PoolAccounting} (hp : p.lowers = some d) (hd : sh.acct.sub d = some a)
    (ha : sh'.acct = a) (hs : sh'.state = sh.state) (he : sh'.epoch = sh.epoch) : Relief sh p sh' p' := by
  refine of_acct (Or.inl ?_) (fun e => ?_) hs he
  · rw [ha, PoolAccounting.inflightCount_of_sub hd]
  · have hc := PoolAccounting.sub_count hd e
    by_cases h : e = d
    · exact Or.inr (h ▸ hp)
    · left
      rw [ha]
      simp only [h, if_false] at hc
      omega

end Relief

variable {sh sh' : Shared} {p p' : Pc} {c : Outcome} {j : JobId}
open Relief

theorem submitStep_relief {p : SubmitPc} (h : submitStep sh j c p = some (sh', p')) :
    Relief sh (.submit j p) sh' p' := by
  cases p with
  | enter =>
    simp only [submitStep] at h
    split at h
    · rename_i ha
      cases h
      have hi := PoolAccounting.inflightCount_of_tryEnter ha
      obtain ⟨g, -, rfl⟩ := Option.map_eq_some_iff.mp ha
      refine of_acct (Or.inl ?_) (fun _ => Or.inl (Nat.le_refl _)) rfl rfl
      exact hi ▸ Nat.le_succ _
    · cases h
      exact of_same rfl rfl (Nat.le_refl _)
  | reserve =>
    simp only [submitStep] at h
    split at h
    · rename_i ha
      obtain rfl := PoolAccounting.tryReserveBoundedSlot_eq ha
      cases h
      exact of_raise rfl rfl rfl
    · cases h
      exact of_same rfl rfl (Nat.le_refl _)
  | leave result =>
    simp only [submitStep] at h
    split at h
    · rename_i a last ha
      cases h
      obtain ⟨⟨g, b⟩, hg, hb⟩ := Option.map_eq_some_iff.mp ha
      cases hb
      unfold AdmissionGate.leave at hg
      split at hg
      · cases hg
        refine of_acct (Or.inr ⟨j, result, rfl, fun hz => ?_⟩) (fun _ => Or.inl (Nat.le_refl _)) rfl rfl
        have hz' : sh.acct.admission.inflight - 1 = 0 := hz
        have hone : sh.acct.admission.inflight = 1 := by omega
        simp [hone]
      · cases hg
    · cases h
      exact of_same rfl rfl (Nat.le_refl _)
  | _ =>
    simp only [submitStep, Shared.withLock, Shared.lower] at h
    repeat' split at h
    all_goals cases h
    all_goals first
      | exact of_same rfl rfl (Nat.le_refl _)
      | exact of_same rfl rfl (Nat.le_succ _)
      | exact of_raise rfl rfl rfl
      | exact of_lower rfl ‹_› rfl rfl rfl

theorem step_relief (h : step sh c p = some (sh', p')) : Relief sh p sh' p' := by
  cases p with
  | submit j p => exact submitStep_relief h
  | worker p =>
    cases p with
    | exit =>
      simp only [step, workerStep] at h
      repeat' split at h
      all_goals cases h
      · exact of_state rfl (Or.inl rfl) (Or.inr rfl) (Nat.le_succ _)
      · exact of_same rfl rfl (Nat.le_refl _)
    | consume again =>
      cases again <;> cases h
      all_goals exact of_same rfl rfl (Nat.le_refl _)
    | _ =>
      simp only [step, workerStep, Shared.lock, Shared.withLock, Shared.lower] at h
      repeat' split at h
      all_goals first | (simp only [Option.map_some] at h; (repeat' split at h) <;> cases h) | cases h
      all_goals first
        | exact of_same rfl rfl (Nat.le_refl _)
        | exact of_same rfl rfl (Nat.le_succ _)
        | exact of_raise rfl rfl rfl
        | exact of_lower rfl ‹_› rfl rfl rfl
        | exact of_state rfl (Or.inl rfl) (Or.inl (Nat.le_refl _)) (Nat.le_refl _)
  | shutdown p =>
    cases p with
    | close =>
      cases h
      exact of_acct (Or.inl (Nat.le_refl _)) (fun _ => Or.inl (Nat.le_refl _)) rfl rfl
    | lockState =>
      obtain ⟨s, hs, h⟩ := Option.map_eq_some_iff.mp h
      obtain ⟨-, rfl⟩ := sh.withLock_eq_some hs
      split at h <;> cases h
      all_goals exact of_state rfl (Or.inr (Or.inl rfl)) (Or.inl (Nat.le_refl _)) (Nat.le_succ _)
    | returned => cases h
  | stop p =>
    cases p with
    | close info =>
      cases h
      exact of_acct (Or.inl (Nat.le_refl _)) (fun _ => Or.inl (Nat.le_refl _)) rfl rfl
    | lockState info =>
      obtain ⟨s, hs, h⟩ := Option.map_eq_some_iff.mp h
      obtain ⟨-, rfl⟩ := sh.lock_eq_some hs
      cases hl : sh.state.lifecycle <;> simp only [hl] at h <;> cases h
      all_goals exact of_state rfl (Or.inr (Or.inr ⟨info, rfl⟩)) (Or.inl (Nat.le_refl _)) (Nat.le_refl _)
    | next jobs report =>
      cases jobs <;> cases h
      all_goals exact of_same rfl rfl (Nat.le_refl _)
    | _ =>
      simp only [step, stopStep, Shared.lock, Shared.withLock, Shared.lower] at h
      repeat' split at h
      all_goals cases h
      all_goals first
        | exact of_same rfl rfl (Nat.le_refl _)
        | exact of_same rfl rfl (Nat.le_succ _)
        | exact of_raise rfl rfl rfl
        | exact of_lower rfl ‹_› rfl rfl rfl
  | cancel p k =>
    cases p with
    | done =>
      cases k <;> cases h
      all_goals exact of_same rfl rfl (Nat.le_refl _)
    | _ =>
      simp only [step, cancelStep, Shared.withLock, Shared.lower] at h
      repeat' split at h
      all_goals cases h
      all_goals first
        | exact of_same rfl rfl (Nat.le_refl _)
        | exact of_same rfl rfl (Nat.le_succ _)
        | exact of_raise rfl rfl rfl
        | exact of_lower rfl ‹_› rfl rfl rfl
  | join p =>
    cases p
    all_goals simp only [step, joinStep, Shared.lock] at h
    all_goals repeat' split at h
    all_goals cases h
    all_goals exact of_same rfl rfl (Nat.le_refl _)
  | observe p =>
    cases p with
    | unlock o terminated =>
      cases o <;> cases h
      all_goals exact of_same rfl rfl (Nat.le_refl _)
    | _ =>
      simp only [step, observeStep, Shared.lock] at h
      repeat' split at h
      all_goals cases h
      all_goals exact of_same rfl rfl (Nat.le_refl _)
  | idle r k =>
    cases h
    exact of_same rfl rfl (Nat.le_refl _)
  | panicked _ => cases h

inductive Wait where
  | quiescence | termination | departure | orders

def Wait.holds (sh : Shared) : Wait → Prop
  | .quiescence => ∀ r : IdleRead, r.value sh.acct = 0
  | .termination => Terminated sh
  | .departure => sh.acct.inflightCount = 0
  | .orders => sh.state.lifecycle ≠ .running ∧ sh.acct.inflightCount = 0

def Wait.stamp : Wait → Pc → Option ℕ
  | .quiescence, .join (.parked e) => some e
  | .termination, .observe (.parked e) => some e
  | .departure, .stop (.parked _ e) => some e
  | .orders, .worker (.parked e) | .orders, .worker (.drainParked e) => some e
  | _, _ => none

def Wait.parking : Wait → Pc → Bool
  | .quiescence, .join .park => true
  | .termination, .observe .park => true
  | .departure, .stop (.park _) => true
  | .orders, .worker .park | .orders, .worker .drainPark => true
  | _, _ => false

def StopPc.orders : StopPc → Bool
  | .readInflight _ | .addWaiter _ | .recheck _ | .subWaiter _ | .readRunning _ | .drain _ _ | .begin _ _ _
  | .beginCancelling _ _ _ _ | .afterCancelling _ _ | .afterCancelled _ _ _ | .notifyAll _ _ => true
  | _ => false

def Pc.owes : Wait → Pc → Bool
  | _, .submit _ (.departGate _) | _, .submit _ (.departNotify _) => true
  | .quiescence, .submit _ (.departWaiters _) => true
  | .quiescence, .worker .finishNotify | .quiescence, .cancel .notify _
  | .quiescence, .idle _ .finishedRunning => true
  | .termination, .worker .finishNotify | .termination, .cancel .notify _
  | .termination, .idle _ .finishedRunning => true
  | .termination, .stop p | .orders, .stop p => p.orders
  | _, _ => false

def waiting (w : Wait) : Waiting Shared Pc where
  epoch := Shared.epoch
  holds := fun sh => w.holds sh
  stamp := w.stamp
  parking := fun p => w.parking p = true
  owes := fun p => p.owes w = true

theorem Wait.locks_of_parking {w : Wait} {q : Pc} (h : w.parking q = true) : q.locks = true := by
  unfold Wait.parking at h
  split at h <;> first | rfl | cases h

section
variable {rest : Multiset Pc} {w : Wait}

theorem clears (law : Gauged sh (p ::ₘ rest)) (hm : p.locks = true ∨ sh.locked = false)
    (he : sh.epoch < sh'.epoch) : (waiting w).Clears sh sh' rest := by
  refine ⟨he, fun q hq hpark => ?_⟩
  have hq' := Wait.locks_of_parking hpark
  rcases hm with hm | hm
  · simp [law.exclusive hm q hq] at hq'
  · obtain ⟨ps, rfl⟩ := Multiset.exists_cons_of_mem hq
    have := Gauged.locked (Multiset.cons_swap p q ps ▸ law) hq'
    simp [hm] at this

theorem withLock_clears {r : Shared × Pc} {q : Pc} (law : Gauged sh (p ::ₘ rest))
    (h : ((sh.withLock Shared.notifyAll).map fun s => (s, q)) = some r) : (waiting w).Clears sh r.1 rest := by
  obtain ⟨s, hs, rfl⟩ := Option.map_eq_some_iff.mp h
  obtain ⟨hf, rfl⟩ := sh.withLock_eq_some hs
  exact clears law (Or.inr hf) (Nat.lt_succ_self _)

def Pc.relieves : Pc → Bool
  | .submit _ (.departGate _) | .idle .inflight .finishedRunning | .cancel .notify _ => true
  | _ => false

theorem Pc.owes_of_relieves (h : p.relieves = true) (hw : w = .quiescence ∨ w = .termination) :
    p.owes w = true := by
  unfold Pc.relieves at h
  split at h <;> first | (rcases hw with rfl | rfl <;> rfl) | cases h

section
variable (inv : Consistent False False sh (p ::ₘ rest)) (h : step sh c p = some (sh', p'))
include inv h

theorem inflight_turns (hz : sh'.acct.inflightCount = 0) :
    sh.acct.inflightCount = 0 ∨ ∃ j result, p' = .submit j (.departGate result) := by
  rcases (step_relief h).inflight with hle | ⟨j, result, rfl, hlast⟩
  · left
    omega
  · exact Or.inr ⟨j, result, hlast hz⟩

theorem quiet_turns (hz : ∀ r : IdleRead, r.value sh'.acct = 0) :
    (∀ r : IdleRead, r.value sh.acct = 0) ∨ p'.relieves = true := by
  by_cases hp : p'.relieves = true
  · exact Or.inr hp
  have relief := step_relief h
  have hn := inv.sound_step h
  have hrec := inv.onto
  have hslots : sh'.acct.count .queueSlot = 0 := hz .slots
  have hrunning : sh'.acct.count .running = 0 := hz .running
  have hcancelling : sh'.acct.count .cancelling = 0 := hz .cancelling
  have hinflight : sh.acct.inflightCount = 0 := by
    refine (inflight_turns inv h (hz .inflight)).resolve_right ?_
    rintro ⟨j, result, rfl⟩
    exact hp rfl
  refine Or.inl fun r => ?_
  cases r with
  | inflight => exact hinflight
  | slots =>
    rcases relief.count .queueSlot with hle | hl
    · exact Nat.le_zero.mp (hslots ▸ hle)
    · unfold Pc.lowers at hl
      split at hl <;> cases hl
      · -- A submitter that rolls back is in flight.
        have := inv.gauged.le_value .inflight
        simp [Gauge.weight, Gauge.value, Pc.inside, SubmitPc.inside, hinflight] at this
      · -- A claimed job is running.
        have hpos := hrec.weight_pos (d := .running) Nat.one_pos
        rcases relief.count .running with hle | hl
        · omega
        · cases hl
      · simp only [step, cancelStep, Shared.lower] at h
        split at h <;> cases h
        · exact absurd rfl hp
        · exact absurd rfl (hn _)
  | running =>
    rcases relief.count .running with hle | hl
    · exact Nat.le_zero.mp (hrunning ▸ hle)
    · unfold Pc.lowers at hl
      split at hl <;> cases hl
      simp only [step, workerStep, Shared.lower] at h
      split at h <;> cases h
      · exact absurd rfl hp
      · exact absurd rfl (hn _)
  | cancelling =>
    rcases relief.count .cancelling with hle | hl
    · exact Nat.le_zero.mp (hcancelling ▸ hle)
    · unfold Pc.lowers at hl
      split at hl <;> cases hl
      -- A job in cancellation holds its slot.
      have hpos := hrec.weight_pos (d := .queueSlot) Nat.one_pos
      rcases relief.count .queueSlot with hle | hl
      · omega
      · cases hl

/-- The call that stores the lifecycle notifies at once or later. -/
theorem lifecycle_turns (hl : sh'.state.lifecycle ≠ .running) (hw : w = .termination ∨ w = .orders) :
    sh.state.lifecycle ≠ .running ∨ p'.owes w = true ∨ (waiting w).Clears sh sh' rest := by
  rcases (step_relief h).lifecycle with he | rfl | ⟨info, rfl⟩
  · exact Or.inl (he ▸ hl)
  · obtain ⟨s, hs, h⟩ := Option.map_eq_some_iff.mp h
    obtain ⟨hf, rfl⟩ := sh.withLock_eq_some hs
    cases h
    refine Or.inr (Or.inr (clears inv.gauged (Or.inr hf) ?_))
    split <;> exact Nat.lt_succ_self _
  · obtain ⟨s, hs, h⟩ := Option.map_eq_some_iff.mp h
    obtain ⟨-, rfl⟩ := sh.lock_eq_some hs
    cases hl : sh.state.lifecycle <;> simp only [hl] at h <;> cases h
    all_goals rcases hw with rfl | rfl <;> exact Or.inr (Or.inl rfl)

theorem terminated_turns (ht : Terminated sh') :
    Terminated sh ∨ p'.owes .termination = true ∨ (waiting .termination).Clears sh sh' rest := by
  by_cases hp : p'.owes .termination = true ∨ (waiting .termination).Clears sh sh' rest
  · exact Or.inr hp
  have hn := inv.sound_step h
  obtain ⟨⟨hl, hlive⟩, hclosed, hzero⟩ := ht
  have hlife := (lifecycle_turns inv h hl (Or.inl rfl)).resolve_right hp
  have hquiet := (quiet_turns inv h fun r => hzero r (by cases r <;> decide)).resolve_right
    fun hr => hp (Or.inl (Pc.owes_of_relieves hr (Or.inr rfl)))
  refine Or.inl ⟨⟨hlife, ?_⟩, inv.closed hlife, fun r _ => hquiet r⟩
  rcases (step_relief h).live with hle | rfl
  · omega
  · simp only [step, workerStep] at h
    split at h
    · cases h
    · rename_i hf
      split at h <;> cases h
      · exact absurd (Or.inr (clears inv.gauged (Or.inr (Bool.eq_false_iff.mpr hf)) (Nat.lt_succ_self _))) hp
      · exact absurd rfl (hn _)

/-- A condition that becomes true is announced, or owed a notification by the actor that made
it so. -/
theorem Wait.turns (hw : w.holds sh') :
    w.holds sh ∨ p'.owes w = true ∨ (waiting w).Clears sh sh' rest := by
  cases w with
  | quiescence =>
    exact (quiet_turns inv h hw).imp_right fun hr => Or.inl (Pc.owes_of_relieves hr (Or.inl rfl))
  | termination => exact terminated_turns inv h hw
  | departure =>
    refine (inflight_turns inv h hw).imp_right ?_
    rintro ⟨j, result, rfl⟩
    exact Or.inl rfl
  | orders =>
    rcases lifecycle_turns inv h hw.1 (Or.inr rfl) with hl | hl
    · rcases inflight_turns inv h hw.2 with hz | ⟨j, result, rfl⟩
      · exact Or.inl ⟨hl, hz⟩
      · exact Or.inr (Or.inl rfl)
    · exact Or.inr hl

end

end

section
variable {rest : Multiset Pc} {w : Wait}

theorem stopStep_keeps {p : StopPc} (law : Gauged sh (.stop p ::ₘ rest)) (hw : w = .termination ∨ w = .orders)
    (hz : sh.acct.inflightCount = 0) (ho : p.orders = true) (h : stopStep sh p = some (sh', p'))
    (hn : ∀ e, p' ≠ .panicked e) : p'.owes w = true ∨ (waiting w).Clears sh sh' rest := by
  have key : ∀ q : StopPc, q.orders = true → (Pc.stop q).owes w = true := by
    rcases hw with rfl | rfl <;> exact fun q hq => hq
  cases p with
  | readInflight info | recheck info =>
    simp only [stopStep, hz, Nat.lt_irrefl, if_false] at h
    cases h
    exact Or.inl (key _ rfl)
  | subWaiter info =>
    simp only [stopStep] at h
    split at h <;> cases h
    · exact Or.inl (key _ rfl)
    · exact absurd rfl (hn _)
  | drain info jobs =>
    simp only [stopStep] at h
    split at h <;> cases h
    all_goals exact Or.inl (key _ rfl)
  | begin info begun jobs =>
    simp only [stopStep, Shared.lower] at h
    repeat' split at h
    all_goals cases h
    · exact Or.inl (key _ rfl)
    · exact Or.inl (key _ rfl)
    · exact absurd rfl (hn _)
  | addWaiter | readRunning | beginCancelling | afterCancelling | afterCancelled =>
    cases h
    exact Or.inl (key _ rfl)
  | notifyAll jobs report =>
    cases h
    exact Or.inr (clears law (Or.inl rfl) (Nat.lt_succ_self _))
  | _ => cases ho

theorem idleStep_notifies {r : IdleRead} (hz : r.value sh.acct = 0) (hw : w = .quiescence ∨ w = .termination) :
    (idleStep sh r .finishedRunning).owes w = true := by
  simp only [idleStep, hz, if_true]
  split <;> rcases hw with rfl | rfl <;> rfl

theorem Wait.keeps (law : Gauged sh (p ::ₘ rest)) (hw : w.holds sh) (ho : p.owes w = true)
    (hclosed : w ≠ .quiescence → sh.acct.admission.closed = true)
    (hwaiters : w = .quiescence → 0 < sh.idleWaiterCount) (h : step sh c p = some (sh', p'))
    (hn : ∀ e, p' ≠ .panicked e) : p'.owes w = true ∨ (waiting w).Clears sh sh' rest := by
  have hz : (w = .quiescence ∨ w = .termination) → ∀ r : IdleRead, r.value sh.acct = 0 := by
    rintro (rfl | rfl)
    · exact hw
    · exact fun r => hw.2.2 r (by cases r <;> decide)
  unfold Pc.owes at ho
  split at ho
  · simp only [step, submitStep] at h
    cases h
    split
    · rename_i hopen
      cases w with
      | quiescence => exact Or.inl rfl
      | _ => simp [PoolAccounting.isAdmissionOpen, AdmissionGate.isOpen, hclosed (by rintro ⟨⟩)] at hopen
    · cases w <;> exact Or.inl rfl
  · exact Or.inr (withLock_clears law h)
  · simp only [step, submitStep, hwaiters rfl, if_true] at h
    cases h
    exact Or.inl rfl
  · exact Or.inr (withLock_clears law h)
  · exact Or.inr (withLock_clears law h)
  · cases h
    exact Or.inl (idleStep_notifies (hz (Or.inl rfl) _) (Or.inl rfl))
  · exact Or.inr (withLock_clears law h)
  · exact Or.inr (withLock_clears law h)
  · cases h
    exact Or.inl (idleStep_notifies (hz (Or.inr rfl) _) (Or.inr rfl))
  · exact stopStep_keeps law (Or.inl rfl) (hz (Or.inr rfl) .inflight) ho h hn
  · exact stopStep_keeps law (Or.inr rfl) hw.2 ho h hn
  · cases ho

end

def Pc.onDuty : Pc → Bool
  | .worker .mark | .worker .readQueued | .worker .readPending | .worker .park => true
  | _ => false

theorem onDuty_step (h : step sh c p = some (sh', p')) (hd : p'.onDuty = true) :
    sh'.state.lifecycle = .running ∨ p.onDuty = true ∧ sh'.state.lifecycle = sh.state.lifecycle := by
  unfold Pc.onDuty at hd
  split at hd
  · obtain ⟨w, rfl, hw⟩ := worker_step h rfl
    exact Or.inl (workerStep_arrives hw)
  · obtain ⟨w, rfl, hw⟩ := worker_step h rfl
    obtain ⟨rfl, hs⟩ := workerStep_arrives hw
    exact Or.inr ⟨rfl, by rw [hs]; rfl⟩
  · obtain ⟨w, rfl, hw⟩ := worker_step h rfl
    obtain ⟨rfl, rfl⟩ := workerStep_arrives hw
    exact Or.inr ⟨rfl, rfl⟩
  · obtain ⟨w, rfl, hw⟩ := worker_step h rfl
    obtain ⟨rfl, rfl⟩ := workerStep_arrives hw
    exact Or.inr ⟨rfl, rfl⟩
  · cases hd

structure Informed (sh : Shared) (p : Pc) : Prop where
  issued : p = .shutdown .returned → sh.state.lifecycle ≠ .running
  onDuty : p.onDuty = true → sh.state.lifecycle = .running

theorem Effect.not_running (eff : Effect sh p sh') (hl : sh.state.lifecycle ≠ .running) :
    sh'.state.lifecycle ≠ .running := by
  intro he
  have hr := eff.lifecycle
  rw [he] at hr
  cases h : sh.state.lifecycle <;> first | exact hl h | simp [h, ExecutorServiceLifecycle.rank] at hr

section
variable {config : FixedThreadPoolConfig} {ok : Machine.Guard Shared Pc Outcome} {t : State Shared Pc}

theorem informed_of_run (h : machine.Run ok (init config) t) : ∀ p ∈ t.actors, Informed t.shared p := by
  refine known_along (K := Informed) .refl ?_ ?_ ?_ h fun p hp => ?_
  · intro sh p rest c sh' p' inv hk _ hm
    have hn := inv.sound_step hm
    refine ⟨fun hi => ?_, fun hd => ?_⟩
    · subst hi
      have hcall := (step_work hm).caller hn
      cases p with
      | shutdown p =>
        cases p with
        | lockState =>
          obtain ⟨s, hs, hm⟩ := Option.map_eq_some_iff.mp hm
          obtain ⟨-, rfl⟩ := sh.withLock_eq_some hs
          cases hm
          split
          · rintro ⟨⟩
          · assumption
        | _ => cases hm
      | cancel p k | idle r k => cases k <;> cases hcall
      | _ => cases hcall
    · rcases onDuty_step hm hd with hl | ⟨hp, hl⟩
      · exact hl
      · rw [hl]
        exact hk.onDuty hp
  · intro sh p rest c sh' p' q inv hq hk _ hm
    have eff := step_effect hm
    refine ⟨fun hi => eff.not_running (hk.issued hi), fun hd => ?_⟩
    have hlocks : q.locks = true := by
      unfold Pc.onDuty at hd
      split at hd <;> first | rfl | cases hd
    rw [(state_frame hq hlocks eff inv.gauged).2]
    exact hk.onDuty hd
  · intro sh ps op sh' p _ hm
    have hs : sh'.state = sh.state := by rw [invoke_same hm]
    refine ⟨?_, fun q _ hk => ⟨by rw [hs]; exact hk.issued, by rw [hs]; exact hk.onDuty⟩⟩
    cases op with
    | submit j =>
      simp only [invoke] at hm
      split at hm <;> cases hm
      exact ⟨(by rintro ⟨⟩), (by rintro ⟨⟩)⟩
    | _ =>
      cases hm
      exact ⟨(by rintro ⟨⟩), (by rintro ⟨⟩)⟩
  · rw [List.eq_of_mem_replicate hp]
    exact ⟨(by rintro ⟨⟩), (by rintro ⟨⟩)⟩

end

theorem idleStep_unstamped (w : Wait) (sh : Shared) (r : IdleRead) (k : IdleCaller) :
    w.stamp (idleStep sh r k) = none := by
  unfold idleStep
  repeat' split
  all_goals
    cases k with
    | term o => cases o <;> cases w <;> rfl
    | _ => cases w <;> rfl

theorem stamp_step {w : Wait} {e : ℕ} (h : step sh c p = some (sh', p')) (hn : ∀ e, p' ≠ .panicked e)
    (hs : w.stamp p' = some e) : w.parking p = true ∧ sh' = sh.unlock ∧ e = sh.epoch := by
  have hp : ∀ r k, p ≠ .idle r k := by
    rintro r k rfl
    cases h
    rw [idleStep_unstamped] at hs
    cases hs
  have hown := Pc.own hp
  rw [← (step_work h).caller hn] at hown
  unfold Wait.stamp at hs
  split at hs <;> cases hs
  · obtain ⟨q, rfl⟩ := hown
    cases q
    all_goals simp only [step, joinStep, Shared.lock] at h
    all_goals repeat' split at h
    all_goals cases h
    exact ⟨rfl, rfl, rfl⟩
  · obtain ⟨q, rfl⟩ := hown
    cases q with
    | unlock o b => cases o <;> cases h
    | term o => cases o <;> simp only [step, observeStep] at h <;> split at h <;> cases h
    | _ =>
      simp only [step, observeStep, Shared.lock] at h
      repeat' split at h
      all_goals cases h
      all_goals exact ⟨rfl, rfl, rfl⟩
  · obtain ⟨s, rfl, hstep⟩ := stop_step h rfl
    obtain ⟨rfl, rfl, rfl⟩ := stopStep_arrives hstep
    exact ⟨rfl, rfl, rfl⟩
  all_goals
    obtain ⟨s, rfl, hstep⟩ := worker_step h rfl
    obtain ⟨rfl, rfl, rfl⟩ := workerStep_arrives hstep
    exact ⟨rfl, rfl, rfl⟩

theorem idleStep_parking {w : Wait} {r : IdleRead} {k : IdleCaller} (h : w.parking (idleStep sh r k) = true) :
    r.value sh.acct ≠ 0 ∧ (w = .quiescence ∨ w = .termination) := by
  unfold idleStep at h
  split at h
  · split at h
    · cases w <;> cases h
    · cases k with
      | term o => cases o <;> cases w <;> cases h
      | _ => cases w <;> cases h
  · refine ⟨‹_›, ?_⟩
    cases k with
    | term o => cases o <;> cases w <;> first | exact Or.inr rfl | cases h
    | _ => cases w <;> first | exact Or.inl rfl | cases h

theorem parking_step {w : Wait} (hinf : Informed sh p) (h : step sh c p = some (sh', p'))
    (hn : ∀ e, p' ≠ .panicked e) (hp : w.parking p' = true) : ¬ w.holds sh' := by
  by_cases hs : ∃ r k, p = .idle r k
  · obtain ⟨r, k, rfl⟩ := hs
    cases h
    obtain ⟨hz, rfl | rfl⟩ := idleStep_parking hp
    · exact fun hq => hz (hq r)
    · exact fun ht => hz (ht.2.2 r (by cases r <;> decide))
  have hown := Pc.own fun r k he => hs ⟨r, k, he⟩
  rw [← (step_work h).caller hn] at hown
  unfold Wait.parking at hp
  split at hp
  · obtain ⟨q, rfl⟩ := hown
    cases q
    all_goals simp only [step, joinStep, Shared.lock] at h
    all_goals repeat' split at h
    all_goals cases h
  · obtain ⟨q, rfl⟩ := hown
    cases q with
    | unlock o b => cases o <;> cases h
    | term o =>
      simp only [step, observeStep] at h
      split at h
      · cases h
      · rename_i hd
        cases o <;> cases h
        exact fun ht => hd (isTerminatedHead_iff.mpr ht.1)
    | _ =>
      simp only [step, observeStep, Shared.lock] at h
      repeat' split at h
      all_goals cases h
  · obtain ⟨s, rfl, hstep⟩ := stop_step h rfl
    obtain ⟨rfl, rfl, hpos⟩ := stopStep_arrives hstep
    exact fun hw => Nat.pos_iff_ne_zero.mp hpos hw
  · obtain ⟨s, rfl, hstep⟩ := worker_step h rfl
    obtain ⟨rfl, rfl⟩ := workerStep_arrives hstep
    exact fun hw => hw.1 (hinf.onDuty rfl)
  · obtain ⟨s, rfl, hstep⟩ := worker_step h rfl
    obtain ⟨rfl, rfl, hpos⟩ := workerStep_arrives hstep
    exact fun hw => Nat.pos_iff_ne_zero.mp hpos hw.2
  · cases hp

theorem Wait.not_owes_of_parking {w : Wait} {q : Pc} (h : w.parking q = true) : q.owes w = false := by
  unfold Wait.parking at h
  split at h <;> first | rfl | cases h

section
variable {rest : Multiset Pc} {w : Wait}

theorem idleWaiters_pos (law : Gauged sh (p ::ₘ rest)) (hs : ∃ q ∈ rest, (waiting .quiescence).Sleeps sh q) :
    0 < sh.idleWaiterCount := by
  obtain ⟨q, hq, hs⟩ := hs
  obtain ⟨ps, rfl⟩ := Multiset.exists_cons_of_mem hq
  have hle := Gauged.le_value (Multiset.cons_swap p q ps ▸ law) .idleWaiters
  have hw : Gauge.idleWaiters.weight q = 1 := by
    rcases hs with hs | hs
    · simp only [waiting, Wait.parking] at hs
      split at hs <;> first | rfl | contradiction
    · simp only [waiting, Wait.stamp] at hs
      split at hs <;> first | rfl | contradiction
  rw [hw] at hle
  exact hle

theorem Wait.closed (inv : Consistent False False sh (p ::ₘ rest)) (hw : w.holds sh)
    (hs : ∃ q ∈ rest, (waiting w).Sleeps sh q) (hne : w ≠ .quiescence) : sh.acct.admission.closed = true := by
  cases w with
  | quiescence => exact absurd rfl hne
  | termination => exact hw.2.1
  | orders => exact inv.closed hw.1
  | departure =>
    obtain ⟨q, hq, hs⟩ := hs
    have hk := inv.known q (Multiset.mem_cons_of_mem hq)
    have hrank : 2 ≤ sh.state.lifecycle.rank := by
      rcases hs with hs | hs
      · simp only [waiting, Wait.parking] at hs
        split at hs <;> first | exact hk.1 rfl | contradiction
      · simp only [waiting, Wait.stamp] at hs
        split at hs <;> first | exact hk.1 rfl | contradiction
    refine inv.closed fun hl => ?_
    simp [hl, ExecutorServiceLifecycle.rank] at hrank

theorem Wait.holds_unlock (w : Wait) : w.holds sh.unlock ↔ w.holds sh := by
  cases w <;> exact Iff.rfl

theorem step_serves (inv : Consistent False False sh (p ::ₘ rest)) (hinf : Informed sh p)
    (h : step sh c p = some (sh', p')) : (waiting w).Serves sh p rest sh' p' := by
  have hn := inv.sound_step h
  refine ⟨(step_relief h).epoch, fun e he => ?_, Wait.turns inv h, fun hw ho hs => ?_, fun hs hw => ?_⟩
  · obtain ⟨-, rfl, rfl⟩ := stamp_step h hn he
    exact Nat.le_refl _
  · refine Wait.keeps inv.gauged hw ho (Wait.closed inv hw hs) (fun he => ?_) h hn
    subst he
    exact idleWaiters_pos inv.gauged hs
  · rcases hs with hs | hs
    · exact absurd hw (parking_step hinf h hn hs)
    · obtain ⟨hp, rfl, -⟩ := stamp_step h hn hs
      refine ⟨w.holds_unlock.mp hw, hp, ?_⟩
      simp [waiting, Wait.not_owes_of_parking hp]

end

section
variable {config : FixedThreadPoolConfig} {ok : Machine.Guard Shared Pc Outcome} {t : State Shared Pc}

theorem heard_of_run (h : machine.Run ok (init config) t) (w : Wait) : (waiting w).Heard t.shared t.actors := by
  refine h.invariant_along (I := fun sh ps => Consistent False False sh ps ∧ ∀ p ∈ ps, Informed sh p)
    (fun u hu => ⟨.of_free_run (Machine.Run.free hu), fun p hp => informed_of_run hu p (Multiset.mem_coe.mp hp)⟩)
    ?_ ?_ ?_
  · intro sh p rest c sh' p' new hi hh _ hm
    obtain ⟨r, hr, he⟩ := Option.map_eq_some_iff.mp hm
    cases he
    exact Waiting.Heard.step _ hh (step_serves hi.1 (hi.2 p (Multiset.mem_cons_self p rest)) hr) (by rintro _ ⟨⟩)
  · intro sh ps op sh' p hi hh hm
    have hs := invoke_same hm
    refine Waiting.Heard.call _ hh ?_ (by rw [hs]; rfl) ?_
    · rw [hs]
      cases w <;> exact id
    · cases op with
      | submit j =>
        simp only [machine, invoke] at hm
        split at hm <;> cases hm
        cases w <;> exact ⟨rfl, (by rintro ⟨⟩)⟩
      | _ =>
        cases hm
        cases w <;> exact ⟨rfl, (by rintro ⟨⟩)⟩
  · have hstart : ∀ p ∈ (init config).actors, p = .worker .start := fun p hp => List.eq_of_mem_replicate hp
    refine ⟨fun p hp e he => ?_, ?_⟩
    · rw [hstart p (Multiset.mem_coe.mp hp)] at he
      cases w <;> cases he
    · rintro - ⟨p, hp, hs⟩
      rw [hstart p (Multiset.mem_coe.mp hp)] at hs
      cases w <;> rcases hs with hs | hs <;> cases hs

end

end ThreadPools.Fixed
