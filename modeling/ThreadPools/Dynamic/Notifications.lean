import ThreadPools.Dynamic.Quiescence
import ThreadPools.Dynamic.Relief
import ThreadPools.Interleaving.Notification

/-! # Lifecycle notifications of the dynamic pool

What a parked thread waits for changes by lock-free updates at many places. The list of
these updates says who owes a notification for which condition.
-/
namespace ThreadPools.Dynamic
open Interleaving

variable {sh sh' : Shared} {p p' : Pc} {c : Outcome} {j : JobId}

/-- What a parked thread waits for: `wait_until_idle`, `wait_for_termination`, the in-flight
wait of `stop` and a worker that has to learn that the pool ends. -/
inductive Wait where
  | quiescence | termination | departure | orders

def Wait.holds (sh : Shared) : Wait → Prop
  | .quiescence => ∀ r : IdleRead, r.value sh.acct = 0
  | .termination => Terminated sh
  | .departure => sh.acct.inflightCount = 0
  | .orders => sh.state.lifecycle ≠ .running ∧ sh.acct.inflightCount = 0

def Wait.stamp : Wait → Pc → Option ℕ
  | .quiescence, .join (.parked e) => some e
  | .termination, .observe (.parked e) => some e
  | .departure, .stop (.parked e) => some e
  | .orders, .worker (.parked _ e) | .orders, .worker (.drainParked e) => some e
  | _, _ => none

def Wait.parking : Wait → Pc → Bool
  | .quiescence, .join .park => true
  | .termination, .observe .park => true
  | .departure, .stop .park => true
  | .orders, .worker (.park _) | .orders, .worker .drainPark => true
  | _, _ => false

/-- The caller of `is_terminated_locked` will notify: it is inside
`notify_waiters_after_atomic_change`. -/
def TermCaller.announces : TermCaller → Bool
  | .notify _ => true
  | _ => false

def TermCaller.orders : TermCaller → Bool
  | .shutdown | .stop _ _ => true
  | _ => false

def TermCaller.exits : TermCaller → Bool
  | .exit | .exitPublish => true
  | _ => false

def TermCaller.owes (w : Wait) (k : TermCaller) : Bool :=
  match w with
  | .quiescence | .departure => k.announces
  | .termination => k.announces || k.orders || k.exits
  | .orders => k.announces || k.orders

/-- A stop call between its store of the lifecycle and its notification that is not parked. -/
def StopPc.orders : StopPc → Bool
  | .readInflight | .addWaiter | .recheck | .subWaiter | .readRunning | .lockQueue _ | .drain _ _
  | .drainWithdraw _ _ _ | .drainCancelling _ _ _ | .unlockQueue _ _ | .notifyAll _ _ => true
  | _ => false

/-- Has updated what `w` waits for and has its `notify_all` still to come. -/
def Pc.owes : Wait → Pc → Bool
  | _, .notifyLock _ | _, .notifyAll _ | _, .submit _ (.departGate _) => true
  | w, .term k | w, .publish k | w, .idle _ (.term k) => k.owes w
  | .quiescence, .submit _ (.departWaiters _) => true
  | .quiescence, .worker .finishNotify | .quiescence, .cancel .notifyCapacity _
  | .quiescence, .idle _ .finishedRunning | .quiescence, .idle _ (.finishedCancelled _) => true
  | .termination, .worker .finishNotify | .termination, .cancel .notifyCapacity _
  | .termination, .idle _ .finishedRunning | .termination, .idle _ (.finishedCancelled _) => true
  | .termination, .shutdown .notifyAll | .orders, .shutdown .notifyAll => true
  | .termination, .stop p | .orders, .stop p => p.orders
  | .termination, .worker .exitTerminated | .termination, .worker .exitNotify => true
  | _, _ => false

def waiting (w : Wait) : Waiting Shared Pc where
  epoch := Shared.epoch
  holds := fun sh => w.holds sh
  stamp := w.stamp
  parking := fun p => w.parking p = true
  owes := fun p => p.owes w = true

theorem Wait.locks_of_parking {w : Wait} {q : Pc} (h : w.parking q = true) : q.locks = true := by
  unfold Wait.parking at h
  split at h <;> first | rfl | cases h

/-- A broadcast under the monitor, or while nobody holds it, finds no one about to park. -/
theorem clears {w : Wait} {rest : Multiset Pc} (law : Gauged sh (p ::ₘ rest))
    (hm : p.locks = true ∨ sh.locked = false) (he : sh.epoch < sh'.epoch) :
    (waiting w).Clears sh sh' rest := by
  refine ⟨he, fun q hq hpark => ?_⟩
  have hq' := Wait.locks_of_parking hpark
  rcases hm with hm | hm
  · simp [law.exclusive hm q hq] at hq'
  · obtain ⟨ps, rfl⟩ := Multiset.exists_cons_of_mem hq
    have := Gauged.locked (Multiset.cons_swap p q ps ▸ law) hq'
    simp [hm] at this

def Pc.relieves : Pc → Bool
  | .submit _ (.departGate _) | .worker .finishNotify | .cancel .notifyCapacity _ => true
  | _ => false

/-- Has updated what termination depends on and has `publish_termination_locked` still to come. -/
def Pc.publishes : Pc → Bool
  | .notifyLock _ | .submit _ (.departGate _) => true
  | .term k | .publish k | .idle _ (.term k) => k.owes .termination
  | .worker .finishNotify | .cancel .notifyCapacity _ | .idle _ .finishedRunning
  | .idle _ (.finishedCancelled _) => true
  | .stop (.notifyAll _ _) => false
  | .stop p => p.orders
  | _ => false

theorem Pc.publishes_of_relieves (h : p.relieves = true) : p.publishes = true := by
  unfold Pc.relieves at h
  split at h <;> first | rfl | cases h

theorem Pc.owes_of_relieves (h : p.relieves = true) : p.owes .quiescence = true := by
  unfold Pc.relieves at h
  split at h <;> first | rfl | cases h

theorem Pc.owes_of_publishes (h : p.publishes = true) : p.owes .termination = true := by
  unfold Pc.publishes at h
  split at h <;> first | rfl | exact h | cases h

section
variable {rest : Multiset Pc} (inv : Consistent False False sh (p ::ₘ rest)) (h : step sh c p = some (sh', p'))
include inv h

theorem inflight_turns (hz : sh'.acct.inflightCount = 0) :
    sh.acct.inflightCount = 0 ∨ ∃ j result, p' = .submit j (.departGate result) := by
  rcases (step_relief h).inflight with hle | ⟨j, result, rfl, hlast⟩
  · left
    omega
  · exact Or.inr ⟨j, result, hlast hz⟩

/-- When the last of the four counters of `is_idle` reaches zero, the actor that lowered it
knows. -/
theorem quiet_turns (hz : ∀ r : IdleRead, r.value sh'.acct = 0) :
    (∀ r : IdleRead, r.value sh.acct = 0) ∨ p'.relieves = true := by
  by_cases hp : p'.relieves = true
  · exact Or.inr hp
  have relief := step_relief h
  have hn := inv.sound_step h
  have hrec := inv.onto
  have hslots : sh'.acct.count .queueSlot = 0 := hz .slots
  have hrunning : sh'.acct.count .running = 0 := hz .running
  have hcancelling : sh'.acct.count .cancelling = 0 := hz .cancelling
  have hinflight : sh.acct.inflightCount = 0 := by
    refine (inflight_turns inv h (hz .inflight)).resolve_right ?_
    rintro ⟨j, result, rfl⟩
    exact hp rfl
  refine Or.inl fun r => ?_
  cases r with
  | inflight => exact hinflight
  | slots =>
    rcases relief.count .queueSlot with hle | hl
    · exact Nat.le_zero.mp (hslots ▸ hle)
    · unfold Pc.lowers at hl
      split at hl <;> cases hl
      · -- A submitter that rolls back is in flight.
        have := inv.gauged.le_value (g := .inflight) nofun
        simp [Gauge.weight, Gauge.value, Pc.home, Pc.inside, SubmitPc.inside, hinflight] at this
      · -- A claimed job is running.
        have hpos := hrec.weight_pos (d := .running) Nat.one_pos
        rcases relief.count .running with hle | hl
        · omega
        · cases hl
      · simp only [step, cancelStep, Shared.lower] at h
        split at h <;> cases h
        · exact absurd rfl hp
        · exact absurd rfl (hn _)
  | running =>
    rcases relief.count .running with hle | hl
    · exact Nat.le_zero.mp (hrunning ▸ hle)
    · unfold Pc.lowers at hl
      split at hl <;> cases hl
      simp only [step, workerStep, Shared.lower] at h
      split at h <;> cases h
      · exact absurd rfl hp
      · exact absurd rfl (hn _)
  | cancelling =>
    rcases relief.count .cancelling with hle | hl
    · exact Nat.le_zero.mp (hcancelling ▸ hle)
    · unfold Pc.lowers at hl
      split at hl <;> cases hl
      -- A job in cancellation holds its slot.
      have hpos := hrec.weight_pos (d := .queueSlot) Nat.one_pos
      rcases relief.count .queueSlot with hle | hl
      · omega
      · cases hl

/-- The call that stores the lifecycle goes on to publish and to notify. -/
theorem lifecycle_turns (hl : sh'.state.lifecycle ≠ .running) :
    sh.state.lifecycle ≠ .running ∨ p'.publishes = true ∧ p'.owes .orders = true := by
  rcases (step_relief h).lifecycle with he | rfl | rfl
  · exact Or.inl (he ▸ hl)
  · obtain ⟨s, -, h⟩ := Option.map_eq_some_iff.mp h
    cases h
    exact Or.inr ⟨rfl, rfl⟩
  · obtain ⟨s, -, h⟩ := Option.map_eq_some_iff.mp h
    cases h
    exact Or.inr ⟨rfl, rfl⟩

theorem terminated_turns (ht : Terminated sh') : Terminated sh ∨ p'.publishes = true := by
  by_cases hp : p'.publishes = true
  · exact Or.inr hp
  have relief := step_relief h
  have hn := inv.sound_step h
  obtain ⟨⟨hl, hlive, hexit⟩, hclosed, hzero⟩ := ht
  have hlife := (lifecycle_turns inv h hl).resolve_right fun h => hp h.1
  have hquiet := (quiet_turns inv h fun r => hzero r (by cases r <;> decide)).resolve_right
    fun hr => hp (Pc.publishes_of_relieves hr)
  refine Or.inl ⟨⟨hlife, ?_, ?_⟩, ?_, fun r _ => hquiet r⟩
  · rcases relief.live with hle | rfl | ⟨k, rfl⟩
    · omega
    · simp only [step, workerStep] at h
      split at h <;> cases h
      · simp at hexit
      · exact absurd rfl (hn _)
    · refine absurd (inv.running_of_grows (Multiset.mem_cons_self _ _) ?_) hlife
      exact Nat.one_pos
  · rcases relief.exiting with hle | rfl
    · omega
    · obtain ⟨s, -, h⟩ := Option.map_eq_some_iff.mp h
      split at h <;> cases h
      · exact absurd rfl hp
      · exact absurd rfl (hn _)
  · exact inv.closed hlife

/-- A condition that becomes true is owed a notification by the actor that made it so. -/
theorem Wait.turns {w : Wait} (hw : w.holds sh') : w.holds sh ∨ p'.owes w = true := by
  cases w with
  | quiescence => exact (quiet_turns inv h hw).imp_right Pc.owes_of_relieves
  | termination => exact (terminated_turns inv h hw).imp_right Pc.owes_of_publishes
  | departure =>
    refine (inflight_turns inv h hw).imp_right ?_
    rintro ⟨j, result, rfl⟩
    rfl
  | orders =>
    rcases lifecycle_turns inv h hw.1 with hl | hl
    · rcases inflight_turns inv h hw.2 with hz | ⟨j, result, rfl⟩
      · exact Or.inl ⟨hl, hz⟩
      · exact Or.inr rfl
    · exact Or.inr hl.2

end

theorem TermCaller.owes_refuted {w : Wait} {k : TermCaller} (h : k.owes w = true) : k.refuted.owes w = true := by
  cases k <;> cases w <;> first | rfl | cases h

theorem TermCaller.owes_confirmed {w : Wait} {k : TermCaller} (h : k.owes w = true) :
    k.confirmed.owes w = true := by
  cases k <;> cases w <;> first | rfl | cases h

theorem TermCaller.owes_published {w : Wait} {k : TermCaller} (h : k.owes w = true) :
    k.published.owes w = true := by
  cases k <;> cases w <;> first | rfl | cases h

theorem idleStep_owes {w : Wait} {k : TermCaller} {r : IdleRead} (h : k.owes w = true) :
    (idleStep sh r (.term k)).owes w = true := by
  unfold idleStep
  split
  · split
    · exact h
    · exact TermCaller.owes_confirmed h
  · exact TermCaller.owes_refuted h

/-- In an idle pool the end of a job goes on to notify. -/
theorem idleStep_notifies {w : Wait} {k : IdleCaller} {r : IdleRead} (hz : r.value sh.acct = 0)
    (hk : ∀ r', (Pc.idle r' k).owes w = true) (hd : (k.decided true).owes w = true) :
    (idleStep sh r k).owes w = true := by
  simp only [idleStep, hz, if_true]
  split
  · exact hk _
  · exact hd

section
variable {rest : Multiset Pc} {w : Wait}

theorem stopStep_keeps {p : StopPc} (law : Gauged sh (.stop p ::ₘ rest)) (hw : w = .termination ∨ w = .orders)
    (hz : sh.acct.inflightCount = 0) (ho : p.orders = true) (h : stopStep sh p = some (sh', p'))
    (hn : ∀ e, p' ≠ .panicked e) : p'.owes w = true ∨ (waiting w).Clears sh sh' rest := by
  have key : ∀ q : StopPc, q.orders = true → (Pc.stop q).owes w = true := by
    rcases hw with rfl | rfl <;> exact fun q hq => hq
  cases p with
  | readInflight | recheck =>
    simp only [stopStep, hz, Nat.lt_irrefl, if_false] at h
    cases h
    exact Or.inl (key _ rfl)
  | subWaiter =>
    simp only [stopStep] at h
    split at h <;> cases h
    · exact Or.inl (key _ rfl)
    · exact absurd rfl (hn _)
  | drain running jobs =>
    simp only [stopStep] at h
    repeat' split at h
    all_goals cases h
    all_goals exact Or.inl (key _ rfl)
  | drainWithdraw running jobs j =>
    simp only [stopStep, Shared.lower] at h
    split at h <;> cases h
    · exact Or.inl (key _ rfl)
    · exact absurd rfl (hn _)
  | lockQueue running =>
    obtain ⟨s, -, h⟩ := Option.map_eq_some_iff.mp h
    cases h
    exact Or.inl (key _ rfl)
  | addWaiter | readRunning | drainCancelling =>
    cases h
    exact Or.inl (key _ rfl)
  | unlockQueue running jobs =>
    cases h
    rcases hw with rfl | rfl <;> exact Or.inl rfl
  | notifyAll jobs report =>
    cases h
    exact Or.inr (clears law (Or.inl rfl) (Nat.lt_succ_self _))
  | _ => cases ho

/-- An actor that owes a notification for a true condition goes on towards it. -/
theorem Wait.keeps (law : Gauged sh (p ::ₘ rest)) (hw : w.holds sh) (ho : p.owes w = true)
    (hclosed : w ≠ .quiescence → sh.acct.admission.closed = true)
    (hwaiters : w = .quiescence → 0 < sh.idleWaiterCount) (h : step sh c p = some (sh', p'))
    (hn : ∀ e, p' ≠ .panicked e) : p'.owes w = true ∨ (waiting w).Clears sh sh' rest := by
  have hz : (w = .quiescence ∨ w = .termination) → ∀ r : IdleRead, r.value sh.acct = 0 := by
    rintro (rfl | rfl)
    · exact hw
    · exact fun r => hw.2.2 r (by cases r <;> decide)
  unfold Pc.owes at ho
  split at ho
  · obtain ⟨s, -, h⟩ := Option.map_eq_some_iff.mp h
    cases h
    cases w <;> exact Or.inl rfl
  · cases h
    exact Or.inr (clears law (Or.inl rfl) (Nat.lt_succ_self _))
  · simp only [step, submitStep] at h
    split at h <;> cases h
    · rename_i hopen
      cases w with
      | quiescence => exact Or.inl rfl
      | _ => simp [PoolAccounting.isAdmissionOpen, AdmissionGate.isOpen, hclosed (by rintro ⟨⟩)] at hopen
    · cases w <;> exact Or.inl rfl
  · simp only [step] at h
    split at h <;> cases h
    · exact Or.inl ho
    · exact Or.inl (TermCaller.owes_refuted ho)
  · cases h
    exact Or.inl (TermCaller.owes_published ho)
  · cases h
    exact Or.inl (idleStep_owes ho)
  · simp only [step, submitStep, hwaiters rfl, if_true] at h
    cases h
    exact Or.inl rfl
  · cases h
    exact Or.inl rfl
  · cases h
    exact Or.inl rfl
  · cases h
    exact Or.inl (idleStep_notifies (hz (Or.inl rfl) _) (fun _ => rfl) rfl)
  · cases h
    exact Or.inl (idleStep_notifies (hz (Or.inl rfl) _) (fun _ => rfl) rfl)
  · cases h
    exact Or.inl rfl
  · cases h
    exact Or.inl rfl
  · cases h
    exact Or.inl (idleStep_notifies (hz (Or.inr rfl) _) (fun _ => rfl) rfl)
  · cases h
    exact Or.inl (idleStep_notifies (hz (Or.inr rfl) _) (fun _ => rfl) rfl)
  · cases h
    exact Or.inr (clears law (Or.inl rfl) (Nat.lt_succ_self _))
  · cases h
    exact Or.inr (clears law (Or.inl rfl) (Nat.lt_succ_self _))
  · exact stopStep_keeps law (Or.inl rfl) (hz (Or.inr rfl) .inflight) ho h hn
  · exact stopStep_keeps law (Or.inr rfl) hw.2 ho h hn
  · cases h
    exact Or.inr (clears law (Or.inl rfl) (Nat.lt_succ_self _))
  · cases h
    exact Or.inr (clears law (Or.inl rfl) (Nat.lt_succ_self _))
  · cases ho

end

theorem TermCaller.unstamped (w : Wait) (k : TermCaller) :
    w.stamp k.refuted = none ∧ w.stamp k.confirmed = none ∧ w.stamp k.published = none := by
  cases k with
  | observer o => cases w <;> cases o <;> exact ⟨rfl, rfl, rfl⟩
  | _ => cases w <;> exact ⟨rfl, rfl, rfl⟩

theorem shared_unstamped {w : Wait} (hp : p.inShared = true) (h : step sh c p = some (sh', p')) :
    w.stamp p' = none := by
  cases p with
  | notifyLock k =>
    obtain ⟨s, -, h⟩ := Option.map_eq_some_iff.mp h
    cases h
    cases w <;> rfl
  | notifyAll k =>
    cases h
    cases w <;> cases k <;> rfl
  | term k =>
    simp only [step] at h
    split at h <;> cases h
    · cases w <;> rfl
    · exact (k.unstamped w).1
  | publish k =>
    cases h
    exact (k.unstamped w).2.2
  | idle r k =>
    cases h
    unfold idleStep
    repeat' split
    · cases w <;> rfl
    · cases k with
      | term k => exact (k.unstamped w).2.1
      | _ => cases w <;> rfl
    · cases k with
      | term k => exact (k.unstamped w).1
      | _ => cases w <;> rfl
  | _ => cases hp

/-- Only a waiter that was about to park is parked by a step, with the current stamp. -/
theorem stamp_step {w : Wait} {e : ℕ} (h : step sh c p = some (sh', p')) (hn : ∀ e, p' ≠ .panicked e)
    (hs : w.stamp p' = some e) : w.parking p = true ∧ sh' = sh.unlock ∧ e = sh.epoch := by
  have hp : p.inShared ≠ true := by
    intro hp
    rw [shared_unstamped hp h] at hs
    cases hs
  have hown := Pc.own hp
  rw [← (step_work h).caller hn] at hown
  unfold Wait.stamp at hs
  split at hs <;> cases hs
  · obtain ⟨q, rfl⟩ := hown
    cases q
    all_goals simp only [step, joinStep, Shared.lock] at h
    all_goals repeat' split at h
    all_goals cases h
    exact ⟨rfl, rfl, rfl⟩
  · obtain ⟨q, rfl⟩ := hown
    cases q with
    | unlock o b => cases o <;> cases h
    | _ =>
      simp only [step, observeStep, Shared.lock] at h
      repeat' split at h
      all_goals cases h
      all_goals exact ⟨rfl, rfl, rfl⟩
  · obtain ⟨s, rfl, hstep⟩ := stop_step h rfl
    obtain ⟨rfl, rfl, rfl⟩ := stopStep_arrives hstep
    exact ⟨rfl, rfl, rfl⟩
  all_goals
    obtain ⟨s, rfl, hstep⟩ := worker_step h rfl
    obtain ⟨rfl, rfl, rfl⟩ := workerStep_arrives hstep
    exact ⟨rfl, rfl, rfl⟩

theorem TermCaller.parking {w : Wait} {k : TermCaller} (h : w.parking k.refuted = true) :
    w = .termination ∧ k = .observer .waitTermination := by
  cases k with
  | observer o => cases o <;> cases w <;> first | exact ⟨rfl, rfl⟩ | cases h
  | _ => cases w <;> cases h

theorem TermCaller.not_parking (w : Wait) (k : TermCaller) :
    w.parking k.confirmed = false ∧ w.parking k.published = false := by
  cases k with
  | observer o => cases o <;> cases w <;> exact ⟨rfl, rfl⟩
  | _ => cases w <;> exact ⟨rfl, rfl⟩

theorem IdleCaller.parking {w : Wait} {k : IdleCaller} {b : Bool} (h : w.parking (k.decided b) = true) :
    b = false ∧ (w = .quiescence ∨ w = .termination) := by
  cases k with
  | term k =>
    cases b
    · exact ⟨rfl, Or.inr (TermCaller.parking h).1⟩
    · rw [IdleCaller.decided, if_pos rfl, (k.not_parking w).1] at h
      cases h
  | join => cases b <;> cases w <;> first | exact ⟨rfl, Or.inl rfl⟩ | cases h
  | _ => cases b <;> cases w <;> cases h

/-- Joiners and observers come to park from the evaluation of their conditions. -/
theorem shared_parking {w : Wait} (hs : p.inShared = true) (h : step sh c p = some (sh', p'))
    (hp : w.parking p' = true) : ¬ w.holds sh' := by
  cases p with
  | term k =>
    simp only [step] at h
    split at h <;> cases h
    · cases w <;> cases hp
    · rename_i hd
      obtain ⟨rfl, -⟩ := TermCaller.parking hp
      exact fun ht => hd (isTerminatedHead_iff.mpr ht.1)
  | publish k =>
    cases h
    rw [(k.not_parking w).2] at hp
    cases hp
  | idle r k =>
    cases h
    unfold idleStep at hp
    split at hp
    · split at hp
      · cases w <;> cases hp
      · cases (IdleCaller.parking hp).1
    · rename_i hz
      rcases (IdleCaller.parking hp).2 with rfl | rfl
      · exact fun hq => hz (hq r)
      · exact fun ht => hz (ht.2.2 r (by cases r <;> decide))
  | notifyLock k =>
    obtain ⟨s, -, h⟩ := Option.map_eq_some_iff.mp h
    cases h
    cases w <;> cases hp
  | notifyAll k =>
    cases h
    cases k <;> cases w <;> cases hp
  | _ => cases hs

/-- A waiter that decides to park has just seen its condition fail. -/
theorem parking_step {w : Wait} (hinf : Informed sh p) (h : step sh c p = some (sh', p'))
    (hn : ∀ e, p' ≠ .panicked e) (hp : w.parking p' = true) : ¬ w.holds sh' := by
  by_cases hs : p.inShared = true
  · exact shared_parking hs h hp
  have hown := Pc.own hs
  rw [← (step_work h).caller hn] at hown
  unfold Wait.parking at hp
  split at hp
  · obtain ⟨q, rfl⟩ := hown
    cases q
    all_goals simp only [step, joinStep, Shared.lock] at h
    all_goals repeat' split at h
    all_goals cases h
  · obtain ⟨q, rfl⟩ := hown
    cases q with
    | unlock o b => cases o <;> cases h
    | _ =>
      simp only [step, observeStep, Shared.lock] at h
      repeat' split at h
      all_goals cases h
  · obtain ⟨s, rfl, hstep⟩ := stop_step h rfl
    obtain ⟨rfl, rfl, hpos⟩ := stopStep_arrives hstep
    exact fun hw => Nat.pos_iff_ne_zero.mp hpos hw
  · obtain ⟨s, rfl, hstep⟩ := worker_step h rfl
    obtain ⟨rfl, rfl⟩ := workerStep_arrives hstep
    exact fun hw => hw.1 (hinf.onDuty rfl)
  · obtain ⟨s, rfl, hstep⟩ := worker_step h rfl
    obtain ⟨rfl, rfl, hpos⟩ := workerStep_arrives hstep
    exact fun hw => Nat.pos_iff_ne_zero.mp hpos hw.2
  · cases hp

theorem Wait.not_owes_of_parking {w : Wait} {q : Pc} (h : w.parking q = true) : q.owes w = false := by
  unfold Wait.parking at h
  split at h <;> first | rfl | cases h

section
variable {rest : Multiset Pc} {w : Wait}

/-- A joiner that is parked or about to park is registered as a waiter. -/
theorem idleWaiters_pos (law : Gauged sh (p ::ₘ rest)) (hs : ∃ q ∈ rest, (waiting .quiescence).Sleeps sh q) :
    0 < sh.idleWaiterCount := by
  obtain ⟨q, hq, hs⟩ := hs
  obtain ⟨ps, rfl⟩ := Multiset.exists_cons_of_mem hq
  have hle := Gauged.le_value (Multiset.cons_swap p q ps ▸ law) (g := .idleWaiters) nofun
  have hw : Gauge.idleWaiters.weight q = 1 := by
    rcases hs with hs | hs
    · simp only [waiting, Wait.parking] at hs
      split at hs <;> first | rfl | contradiction
    · simp only [waiting, Wait.stamp] at hs
      split at hs <;> first | rfl | contradiction
  rw [hw] at hle
  exact hle

/-- Where somebody waits for more than quiescence, admission is closed. -/
theorem Wait.closed (inv : Consistent False False sh (p ::ₘ rest)) (hinf : ∀ q ∈ rest, Informed sh q)
    (hw : w.holds sh) (hs : ∃ q ∈ rest, (waiting w).Sleeps sh q) (hne : w ≠ .quiescence) :
    sh.acct.admission.closed = true := by
  cases w with
  | quiescence => exact absurd rfl hne
  | termination => exact hw.2.1
  | orders => exact inv.closed hw.1
  | departure =>
    obtain ⟨q, hq, hs⟩ := hs
    refine inv.closed ((hinf q hq).issued ?_)
    rcases hs with hs | hs
    · simp only [waiting, Wait.parking] at hs
      split at hs <;> first | rfl | contradiction
    · simp only [waiting, Wait.stamp] at hs
      split at hs <;> first | rfl | contradiction

theorem Wait.holds_unlock (w : Wait) : w.holds sh.unlock ↔ w.holds sh := by
  cases w <;> exact Iff.rfl

/-- Every step serves every kind of waiter. -/
theorem step_serves (inv : Consistent False False sh (p ::ₘ rest)) (hinf : ∀ q ∈ p ::ₘ rest, Informed sh q)
    (h : step sh c p = some (sh', p')) : (waiting w).Serves sh p rest sh' p' := by
  have hn := inv.sound_step h
  refine ⟨(step_relief h).epoch, fun e he => ?_, fun hw => ?_, fun hw ho hs => ?_, fun hs hw => ?_⟩
  · obtain ⟨-, rfl, rfl⟩ := stamp_step h hn he
    exact Nat.le_refl _
  · rcases Wait.turns inv h hw with hw | ho
    · exact Or.inl hw
    · exact Or.inr (Or.inl ho)
  · refine Wait.keeps inv.gauged hw ho (fun hne => ?_) (fun he => ?_) h hn
    · exact Wait.closed inv (fun q hq => hinf q (Multiset.mem_cons_of_mem hq)) hw hs hne
    · subst he
      exact idleWaiters_pos inv.gauged hs
  · rcases hs with hs | hs
    · exact absurd hw (parking_step (hinf p (Multiset.mem_cons_self p rest)) h hn hs)
    · obtain ⟨hp, rfl, -⟩ := stamp_step h hn hs
      refine ⟨w.holds_unlock.mp hw, hp, ?_⟩
      simp [waiting, Wait.not_owes_of_parking hp]

end

section
variable {config : ThreadPoolConfig} {tickets : JobId → Bool} {ok : Machine.Guard Shared Pc Outcome}
variable {t : State Shared Pc}

theorem heard_of_run (h : machine.Run ok (init config tickets) t) (w : Wait) :
    (waiting w).Heard t.shared t.actors := by
  refine h.invariant_along (I := fun sh ps => Consistent False False sh ps ∧ ∀ p ∈ ps, Informed sh p)
    (fun u hu => ⟨.of_free_run (Machine.Run.free hu), fun p hp => informed_of_run hu p (Multiset.mem_coe.mp hp)⟩)
    ?_ ?_ (.start _)
  · intro sh p rest c sh' p' new hi hh _ hm
    obtain ⟨r, hr, he⟩ := Option.map_eq_some_iff.mp hm
    cases he
    refine Waiting.Heard.step _ hh (step_serves hi.1 hi.2 hr) fun q hq => ?_
    rw [Consistent.spawned_fresh (Multiset.mem_coe.mp hq)]
    cases w <;> exact ⟨rfl, (by rintro ⟨⟩)⟩
  · intro sh ps op sh' p hi hh hm
    have hs := invoke_same hm
    refine Waiting.Heard.call _ hh ?_ (by rw [hs]; rfl) ?_
    · rw [hs]
      cases w <;> exact id
    · cases op with
      | submit j caller | cancelQueued j caller =>
        simp only [machine, invoke] at hm
        split at hm <;> cases hm
        cases w <;> exact ⟨rfl, (by rintro ⟨⟩)⟩
      | _ =>
        cases hm
        cases w <;> exact ⟨rfl, (by rintro ⟨⟩)⟩

end

section
variable {rest : Multiset Pc}

theorem TermCaller.publishes_confirmed {k : TermCaller} (h : k.owes .termination = true) :
    k.confirmed.publishes = true := by
  cases k <;> first | rfl | cases h

theorem idleStep_publishes {r : IdleRead} {k : IdleCaller} (hz : r.value sh.acct = 0)
    (hk : ∀ r', (Pc.idle r' k).publishes = true) (hd : (k.decided true).publishes = true) :
    (idleStep sh r k).publishes = true := by
  simp only [idleStep, hz, if_true]
  split
  · exact hk _
  · exact hd

theorem stopStep_publishes {p : StopPc} (hz : sh.acct.inflightCount = 0) (hp : (Pc.stop p).publishes = true)
    (h : stopStep sh p = some (sh', p')) (hn : ∀ e, p' ≠ .panicked e) : p'.publishes = true := by
  cases p with
  | readInflight | recheck =>
    simp only [stopStep, hz, Nat.lt_irrefl, if_false] at h
    cases h
    rfl
  | subWaiter =>
    simp only [stopStep] at h
    split at h <;> cases h
    · rfl
    · exact absurd rfl (hn _)
  | drain running jobs =>
    simp only [stopStep] at h
    repeat' split at h
    all_goals cases h
    all_goals rfl
  | drainWithdraw running jobs j =>
    simp only [stopStep, Shared.lower] at h
    split at h <;> cases h
    · rfl
    · exact absurd rfl (hn _)
  | lockQueue running =>
    obtain ⟨s, -, h⟩ := Option.map_eq_some_iff.mp h
    cases h
    rfl
  | addWaiter | readRunning | drainCancelling | unlockQueue =>
    cases h
    rfl
  | _ => cases hp

/-- In a terminated pool an actor that has to publish goes on to do so. -/
theorem publishes_step (ht : Terminated sh) (hp : p.publishes = true) (h : step sh c p = some (sh', p'))
    (hn : ∀ e, p' ≠ .panicked e) : p'.publishes = true ∨ sh'.terminationTx = true := by
  have hz : ∀ r : IdleRead, r.value sh.acct = 0 := fun r => ht.2.2 r (by cases r <;> decide)
  unfold Pc.publishes at hp
  split at hp
  · obtain ⟨s, -, h⟩ := Option.map_eq_some_iff.mp h
    cases h
    exact Or.inl rfl
  · simp only [step, submitStep, PoolAccounting.isAdmissionOpen, AdmissionGate.isOpen, ht.2.1] at h
    cases h
    exact Or.inl rfl
  · simp only [step, isTerminatedHead_iff.mpr ht.1, if_true] at h
    cases h
    exact Or.inl hp
  · cases h
    exact Or.inr rfl
  · cases h
    exact Or.inl (idleStep_publishes (hz _) (fun _ => hp) (TermCaller.publishes_confirmed hp))
  · cases h
    exact Or.inl rfl
  · cases h
    exact Or.inl rfl
  · cases h
    exact Or.inl (idleStep_publishes (hz _) (fun _ => rfl) rfl)
  · cases h
    exact Or.inl (idleStep_publishes (hz _) (fun _ => rfl) rfl)
  · cases hp
  · rename_i q hq
    refine Or.inl (stopStep_publishes (hz .inflight) ?_ h hn)
    cases q <;> first | exact hp | exact absurd rfl (hq _ _)
  · cases hp

end

section
variable {config : ThreadPoolConfig} {tickets : JobId → Bool} {t : State Shared Pc}

/-- The watched flag agrees with the termination predicate: it is set only after termination,
and after termination it is set unless some actor is on its way to set it. -/
theorem termination_watch_agrees (h : machine.Run Machine.free (init config tickets) t) :
    (t.shared.terminationTx = true → Terminated t.shared) ∧
      (Terminated t.shared → t.shared.terminationTx = true ∨ ∃ p ∈ t.actors, p.publishes = true) := by
  refine invariant_along (J := fun sh ps => (sh.terminationTx = true → Terminated sh) ∧
    (Terminated sh → sh.terminationTx = true ∨ ∃ p ∈ ps, p.publishes = true)) .refl ?_ ?_ h ⟨nofun, ?_⟩
  · intro sh p rest c sh' p' inv hj _ hm
    have hstable : Terminated sh → Terminated sh' := fun ht =>
      ht.step (step_effect hm) inv.gauged inv.onto inv.growing
    have hset : sh.terminationTx = true → sh'.terminationTx = true := by
      rcases (step_relief hm).published with he | ⟨k, rfl⟩
      · exact fun htx => he.trans htx
      · cases hm
        exact fun _ => rfl
    refine ⟨fun htx => ?_, fun ht => ?_⟩
    · rcases (step_relief hm).published with he | ⟨k, rfl⟩
      · exact hstable (hj.1 (he ▸ htx))
      · exact hstable (inv.known _ (Multiset.mem_cons_self _ _))
    · rcases terminated_turns inv hm ht with ht | hp
      · rcases hj.2 ht with htx | ⟨q, hq, hp⟩
        · exact Or.inl (hset htx)
        · rcases Multiset.mem_cons.mp hq with rfl | hq
          · rcases publishes_step ht hp hm (inv.sound_step hm) with hp | htx
            · exact Or.inr ⟨p', Multiset.mem_cons_self _ _, hp⟩
            · exact Or.inl htx
          · exact Or.inr ⟨q, Multiset.mem_cons_of_mem (Multiset.mem_add.mpr (Or.inr hq)), hp⟩
      · exact Or.inr ⟨p', Multiset.mem_cons_self _ _, hp⟩
  · intro sh ps op sh' p _ hj hm
    rw [invoke_same hm]
    refine ⟨hj.1, fun ht => (hj.2 ht).imp_right ?_⟩
    rintro ⟨q, hq, hp⟩
    exact ⟨q, Multiset.mem_cons_of_mem hq, hp⟩
  · exact fun ht => absurd rfl ht.1.1

end

/-- The last worker finds the drained pool terminated while the flag is unset, and later the flag
is set. -/
theorem termination_watch_agrees_drained :
    (∃ t, machine.Run Machine.free (init soleWorker fun _ => false) t ∧ Terminated t.shared ∧
      t.shared.terminationTx = false ∧ ∃ p ∈ t.actors, p.publishes = true) ∧
    ∃ t, machine.Run Machine.free (init soleWorker fun _ => false) t ∧ t.shared.terminationTx = true ∧
      Terminated t.shared := by
  constructor
  · have hexec : (machine.exec Machine.free (init soleWorker fun _ => false)
        (drainedSchedule ++ turns 1 10 Outcome.ok)).map (fun t => (t.shared.terminationTx,
          t.shared.state.isTerminatedHead, t.shared.acct.admission.closed,
          [IdleRead.inflight, .slots, .running, .cancelling].map fun r => r.value t.shared.acct)) =
        some (false, true, true, [0, 0, 0, 0]) := by
      decide
    obtain ⟨t, hrun, ht⟩ := machine.exec_reaches hexec
    simp only [Prod.mk.injEq, List.map_cons, List.map_nil, List.cons.injEq, and_true] at ht
    obtain ⟨htx, hhead, hclosed, hinflight, hslots, hrunning, hcancelling⟩ := ht
    have hterm : Terminated t.shared := by
      refine ⟨isTerminatedHead_iff.mp hhead, hclosed, fun r _ => ?_⟩
      cases r <;> assumption
    refine ⟨t, hrun, hterm, htx, ((termination_watch_agrees hrun).2 hterm).resolve_left ?_⟩
    simp [htx]
  · have hexec : (machine.exec Machine.free (init soleWorker fun _ => false)
        (drainedSchedule ++ turns 1 18 Outcome.ok)).map (fun t => t.shared.terminationTx) = some true := by
      decide
    obtain ⟨t, hrun, htx⟩ := machine.exec_reaches hexec
    exact ⟨t, hrun, htx, (termination_watch_agrees hrun).1 htx⟩

end ThreadPools.Dynamic
