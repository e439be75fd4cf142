import ThreadPools.Dynamic.Notifications
import ThreadPools.Dynamic.Stopping
import ThreadPools.Dynamic.Locks
import ThreadPools.Interleaving.Rest

/-! # The dynamic pool rests only when its work is done

Whoever is not parked wants at most one lock, and the locks are ordered, so at rest all
of them are free. What is left are calls that have returned and waiters, and a waiter whose
condition holds has been notified.
-/
namespace ThreadPools.Dynamic
open Interleaving
open Move (call)

variable {sh sh' : Shared} {p p' q : Pc} {ps rest : Multiset Pc} {c : Outcome} {j : JobId}

def Pc.parkedAt : Pc → Option ℕ
  | .worker (.parked _ e) | .worker (.drainParked e) | .stop (.parked e) | .join (.parked e)
  | .observe (.parked e) => some e
  | _ => none

def Undecided (sh : Shared) (j : JobId) : Prop :=
  (∃ owner requested, (sh.jobs j).entry = some (.accepting owner requested)) ∨
    (sh.jobs j).entry = some .cancelling

/-- Parked without a notification since, or waiting for the submitter of a job. -/
def Asleep (sh : Shared) (p : Pc) : Prop :=
  p.parkedAt = some sh.epoch ∨ ∃ j, p = .ticket j .waiting ∧ Undecided sh j

theorem Pc.enabled (hf : p.finished = false) (hn : ∀ e, p ≠ .panicked e)
    (hl : ∀ l, p.wants sh = some l → l.held sh = false) : ∃ r, step sh .ok p = some r := by
  have hmon : p.wants sh = some .monitor → sh.locked = false := hl .monitor
  have hqueue : p.wants sh = some .queue → sh.queueLocked = false := hl .queue
  cases p with
  | submit j p =>
    cases p with
    | returned result => cases hf
    | lockState => simp [step, submitStep, Shared.lock, hmon rfl]
    | broadcast => simp [step, submitStep, Shared.withLock, hmon rfl]
    | lockQueue => simp [step, submitStep, Shared.lockQueue, hqueue rfl]
    | enter | checkState | reserveSlot | beginAccept | setRejected | decideEntry | loadIdle | raiseToken | leave
    | departGate | departWaiters =>
      simp only [step, submitStep]
      repeat' split
      all_goals exact ⟨_, rfl⟩
    | _ => exact ⟨_, rfl⟩
  | spawn p k =>
    cases p with
    | rollback =>
      simp only [step, spawnStep]
      split <;> exact ⟨_, rfl⟩
    | _ => exact ⟨_, rfl⟩
  | prestart => simp [step, prestartStep, Shared.lock, hmon rfl]
  | prestarted result => cases hf
  | worker p =>
    cases p with
    | exited => cases hf
    | takeLock => simp [step, workerStep, Shared.lockQueue, hqueue rfl]
    | lockState | relock | parked | drainParked | exitLock => simp [step, workerStep, Shared.lock, hmon rfl]
    | takePop | overMaximum | unmark | unregister | unregisterCount =>
      simp only [step, workerStep]
      repeat' split
      all_goals exact ⟨_, rfl⟩
    | _ => exact ⟨_, rfl⟩
  | shutdown p =>
    cases p with
    | lockState => simp [step, shutdownStep, Shared.lock, hmon rfl]
    | returned => cases hf
    | _ => exact ⟨_, rfl⟩
  | stop p =>
    cases p with
    | returned => cases hf
    | lockState | parked => simp [step, stopStep, Shared.lock, hmon rfl]
    | finalNotify => simp [step, stopStep, Shared.withLock, hmon rfl]
    | lockQueue => simp [step, stopStep, Shared.lockQueue, hqueue rfl]
    | subWaiter | drain | next =>
      simp only [step, stopStep]
      repeat' split
      all_goals exact ⟨_, rfl⟩
    | _ => exact ⟨_, rfl⟩
  | ticket j p =>
    cases p with
    | returned => cases hf
    | check | waiting =>
      have hentry : (sh.jobs j).entryLocked = false := hl (.entry j) rfl
      simp only [step, ticketStep, hentry, Bool.false_eq_true, if_false]
      repeat' split
      all_goals exact ⟨_, rfl⟩
    | lockQueue => simp [step, ticketStep, Shared.lockQueue, hqueue rfl]
    | remove =>
      simp only [step, ticketStep]
      repeat' split
      all_goals exact ⟨_, rfl⟩
    | _ => exact ⟨_, rfl⟩
  | cancel p k => cases p <;> cases k <;> exact ⟨_, rfl⟩
  | join p =>
    cases p with
    | returned => cases hf
    | lockState | parked => simp [step, joinStep, Shared.lock, hmon rfl]
    | subWaiter =>
      simp only [step, joinStep]
      split <;> exact ⟨_, rfl⟩
    | _ => exact ⟨_, rfl⟩
  | observe p =>
    cases p with
    | returned | returnedLifecycle | returnedStats => cases hf
    | lockState | parked => simp [step, observeStep, Shared.lock, hmon rfl]
    | unlock o b => cases o <;> exact ⟨_, rfl⟩
    | _ => exact ⟨_, rfl⟩
  | setter p =>
    cases p with
    | returned => cases hf
    | corePoolSize n =>
      simp only [step, setterStep, hmon rfl, Bool.false_eq_true, if_false]
      split <;> exact ⟨_, rfl⟩
    | maximumPoolSize n =>
      by_cases hz : n = 0
      · exact ⟨_, if_pos hz⟩
      · simp only [step, setterStep, hz, hmon (if_neg hz), Bool.false_eq_true, if_false]
        split <;> exact ⟨_, rfl⟩
    | keepAlive n =>
      by_cases hz : n = 0
      · exact ⟨_, if_pos hz⟩
      · simp [step, setterStep, Shared.withLock, hz, hmon (if_neg hz)]
    | allowCoreThreadTimeout => simp [step, setterStep, Shared.withLock, hmon rfl]
    | notify => exact ⟨_, rfl⟩
  | notifyLock k => simp [step, Shared.lock, hmon rfl]
  | panicked e => exact absurd rfl (hn e)
  | _ => exact ⟨_, rfl⟩

/-- Outside the gate, without a lock, a job that counts or a notification that is due. -/
structure Pc.EmptyHanded (p : Pc) : Prop where
  inflight : Gauge.inflight.weight p = 0
  exiting : Gauge.exitingWorkers.weight p = 0
  owes : ∀ w, p.owes w = false
  waking : p.waking = false
  broadcasts : p.broadcasts = false
  holds : ∀ l, p.holds l = false
  holdings : ∀ e ∈ p.holdings, ∃ error, e.2 = .rejected error

theorem Pc.empty_handed (h : p.finished = true ∨ ∃ e, p.parkedAt = some e) : p.EmptyHanded := by
  have hnone : ∀ e ∈ (0 : Book), ∃ error, e.2 = .rejected error := fun e he => absurd he (Multiset.notMem_zero e)
  have hlocks : p.locks = false → p.queues = false → (∀ j, p.entries j = false) → ∀ l, p.holds l = false := by
    rintro h₁ h₂ h₃ ⟨⟩
    · exact h₁
    · exact h₂
    · exact h₃ _
  rcases h with h | ⟨e, h⟩
  · unfold Pc.finished at h
    split at h
    · rename_i j result
      refine ⟨rfl, rfl, fun w => by cases w <;> rfl, rfl, rfl, hlocks rfl rfl fun _ => rfl, fun e he => ?_⟩
      cases result with
      | none => exact hnone e he
      | some error =>
        obtain rfl := Multiset.mem_singleton.mp he
        exact ⟨error, rfl⟩
    all_goals first
      | cases h; done
      | exact ⟨rfl, rfl, fun w => by cases w <;> rfl, rfl, rfl, hlocks rfl rfl fun _ => rfl, hnone⟩
  · unfold Pc.parkedAt at h
    split at h
    all_goals first
      | cases h; done
      | exact ⟨rfl, rfl, fun w => by cases w <;> rfl, rfl, rfl, hlocks rfl rfl fun _ => rfl, hnone⟩

/-- A stop call does not go back. -/
theorem stopStage_step (h : step sh c p = some (sh', p')) (hn : ∀ e, p' ≠ .panicked e)
    (hp : p.stopStage ≠ .closing) : p'.stopStage ≠ .closing := by
  by_cases hs : p.inShared = true
  · rwa [Pc.stopStage, steady_stopStage.step hs h]
  cases p with
  | stop p =>
    cases p with
    | next jobs report => cases jobs <;> cases h <;> rintro ⟨⟩
    | close | notifyCapacity | storeStop => exact absurd rfl hp
    | _ =>
      simp only [step, stopStep, Shared.lock, Shared.lockQueue, Shared.withLock, Shared.lower] at h
      repeat' split at h
      all_goals cases h
      all_goals first | exact absurd rfl (hn _) | rintro ⟨⟩
  | cancel p k =>
    cases k with
    | stop i jobs report =>
      cases p
      all_goals simp only [step, cancelStep, Shared.lower] at h
      all_goals repeat' split at h
      all_goals cases h
      all_goals first | exact absurd rfl (hn _) | rintro ⟨⟩
    | _ => exact absurd rfl hp
  | spawn p k => cases k <;> exact absurd rfl hp
  | notifyLock | notifyAll | term | publish | idle => exact absurd rfl hs
  | _ => exact absurd rfl hp

section
variable {config : ThreadPoolConfig} {tickets : JobId → Bool} {ok : Machine.Guard Shared Pc Outcome}
variable {t : State Shared Pc}

/-- The Stopping lifecycle has been stored by a stop call that is still there. -/
theorem stop_of_stopping (h : machine.Run ok (init config tickets) t)
    (hl : 2 ≤ t.shared.state.lifecycle.rank) : ∃ p ∈ t.actors, p.stopStage ≠ .closing := by
  refine invariant_along (J := fun sh ps => 2 ≤ sh.state.lifecycle.rank → ∃ p ∈ ps, p.stopStage ≠ .closing)
    .refl ?_ ?_ h ?_ hl
  · intro sh p rest c sh' p' inv hJ _ hm hl
    have keep : p.stopStage ≠ .closing → ∃ q ∈ p' ::ₘ (↑(spawned p c) + rest), q.stopStage ≠ .closing :=
      fun hp => ⟨p', Multiset.mem_cons_self _ _, stopStage_step hm (inv.sound_step hm) hp⟩
    have old : 2 ≤ sh.state.lifecycle.rank → ∃ q ∈ p' ::ₘ (↑(spawned p c) + rest), q.stopStage ≠ .closing := by
      intro hl
      obtain ⟨q, hq, hs⟩ := hJ hl
      rcases Multiset.mem_cons.mp hq with rfl | hq
      · exact keep hs
      · exact ⟨q, Multiset.mem_cons_of_mem (Multiset.mem_add.mpr (Or.inr hq)), hs⟩
    rcases (step_relief hm).lifecycle with he | rfl | rfl
    · exact old (he ▸ hl)
    · refine old ?_
      obtain ⟨s, hs, hm⟩ := Option.map_eq_some_iff.mp hm
      obtain ⟨-, rfl⟩ := sh.lock_eq_some hs
      cases hm
      split at hl
      · simp [Shared.setLifecycle, ExecutorServiceLifecycle.rank] at hl
      · exact hl
    · exact keep (by rintro ⟨⟩)
  · intro sh ps op sh' p _ hJ hm hl
    rw [invoke_same hm] at hl
    obtain ⟨q, hq, hs⟩ := hJ hl
    exact ⟨q, Multiset.mem_cons_of_mem hq, hs⟩
  · simp [init, Shared.new, ThreadPoolState.new, ExecutorServiceLifecycle.rank]

/-- Workers wait for the last submitter only in a pool that is not running. -/
theorem draining_of_run (h : machine.Run ok (init config tickets) t) : ∀ p ∈ t.actors,
    (∃ e, p = .worker (.drainParked e)) → t.shared.state.lifecycle ≠ .running := by
  refine known_along (K := fun sh p => (∃ e, p = .worker (.drainParked e)) → sh.state.lifecycle ≠ .running)
    .refl ?_ ?_ (fun _ => by rintro ⟨_, ⟨⟩⟩) ?_ h (List.forall_mem_nil _)
  · rintro sh p rest c sh' p' inv - - hm ⟨e, rfl⟩
    obtain ⟨hpark, rfl, -⟩ := stamp_step (w := .orders) hm (inv.sound_step hm) rfl
    have hp : p = .worker .drainPark := by
      cases p with
      | worker p =>
        cases p with
        | park timed => cases hm
        | drainPark => rfl
        | _ => cases hpark
      | _ => cases hpark
    subst hp
    have hd := inv.known _ (Multiset.mem_cons_self _ rest) rfl
    exact fun hl => by cases hd.symm.trans hl
  · exact fun sh p rest c sh' p' q inv _ hk _ hm hq => (step_effect hm).not_running (hk hq)
  · intro sh ps op sh' p _ hm
    rw [invoke_same hm]
    refine ⟨?_, fun q _ hk => hk⟩
    rintro ⟨e, rfl⟩
    cases op with
    | submit j caller | cancelQueued j caller =>
      simp only [invoke] at hm
      split at hm <;> cases hm
    | _ => cases hm

/-- No lock is held at rest, so only finished and sleeping actors are left. -/
theorem finished_or_asleep (h : machine.Run ok (init config tickets) t) (hr : machine.AtRest Asleep t) :
    ∀ p ∈ t.actors, p.finished = true ∨ Asleep t.shared p := by
  have g : Governed t.shared t.actors := ⟨.of_run h, fun j => (Ticketed.of_run h j).toStaged⟩
  have able : ∀ p ∈ t.actors, p.finished = false → (∀ l, p.wants t.shared = some l → ¬ l.held t.shared = true) →
      ∃ c r, machine.step t.shared p c = some r := by
    intro p hp hf hl
    have hn := g.attended.consistent.sound p (Multiset.mem_coe.mpr hp)
    obtain ⟨r, hr⟩ := Pc.enabled hf hn fun l hw => Bool.eq_false_iff.mpr (hl l hw)
    exact ⟨.ok, _, Option.map_eq_some_iff.mpr ⟨r, hr, rfl⟩⟩
  have hfree : ∀ l : PoolLock, ¬ l.held t.shared = true := by
    refine hr.free (n := 3) PoolLock.rank (fun l => l.held t.shared = true)
      (fun p l => p.wants t.shared = some l) (fun p l => p.holds l = true) (fun l => ?_) (fun l hl => ?_) (fun p _ l l' => wants_above)
      (fun p hp ho hw => ?_)
    · cases l <;> simp [PoolLock.rank]
    · obtain ⟨p, hp, hpl⟩ := (g.owned l).mp hl
      exact ⟨p, Multiset.mem_coe.mp hp, hpl⟩
    · obtain ⟨l, ho⟩ := ho
      have hbusy : ¬ (p.finished = true ∨ ∃ e, p.parkedAt = some e) := fun he => by
        rw [(Pc.empty_handed he).holds l] at ho
        cases ho
      refine ⟨?_, able p hp (Bool.eq_false_iff.mpr fun hf => hbusy (Or.inl hf)) hw⟩
      rintro (ha | ⟨j, rfl, -⟩)
      · exact hbusy (Or.inr ⟨_, ha⟩)
      · cases l <;> cases ho
  intro p hp
  cases hf : p.finished with
  | true => exact Or.inl rfl
  | false =>
    obtain ⟨c, r, hs⟩ := able p hp hf fun l _ => hfree l
    rcases hr p hp with ha | hn
    · exact Or.inr ha
    · rw [hn c] at hs
      cases hs

/-- At rest every submission has returned, so no call of `cancel_queued` waits for one. -/
theorem decided_at_rest (h : machine.Run ok (init config tickets) t)
    (hfa : ∀ p ∈ t.actors, p.finished = true ∨ Asleep t.shared p) (j : JobId) : ¬ Undecided t.shared j := by
  have st := (Ticketed.of_run h j).toStaged
  have entry : ∀ s : Stage, s.Admits (t.shared.jobs j) → s = .untouched ∨ s = .refused ∨ s = .given →
      ¬ Undecided t.shared j := by
    rintro s ha hs (⟨owner, requested, he⟩ | he)
    all_goals rcases hs with rfl | rfl | rfl
    all_goals simp only [Stage.Admits, he] at ha
    all_goals first
      | (split at ha <;> cases ha)
      | rcases ha with ha | ha | ha <;> cases ha
  cases ho : t.shared.offered j with
  | false => exact entry _ (st.unoffered ho).1 (Or.inl rfl)
  | true =>
    have hpos : 0 < total (Pc.submits j) (t.actors : Multiset Pc) := by
      rw [one_submitter h j, ho]
      exact Nat.one_pos
    obtain ⟨p, hp, hpos⟩ := total_pos_iff.mp hpos
    have hc : p.call = some (.submit j) := by
      by_contra hc
      simp [Pc.submits, hc] at hpos
    refine entry _ (st.fits p hp hc).1 ?_
    rcases hfa p (Multiset.mem_coe.mp hp) with hf | ha | ⟨i, rfl, -⟩
    · unfold Pc.finished at hf
      split at hf
      · rename_i i result
        rcases result with _ | ⟨_ | _⟩
        · exact Or.inr (Or.inr rfl)
        · exact Or.inl rfl
        · exact Or.inr (Or.inl rfl)
      all_goals first | cases hf; done | cases hc
    · unfold Pc.parkedAt at ha
      split at ha <;> first | cases ha; done | cases hc
    · cases hc

def Stalled (t : State Shared Pc) : Prop :=
  ∀ p ∈ t.actors, p.finished = true ∨ p.parkedAt = some t.shared.epoch

theorem stalled_at_rest (h : machine.Run ok (init config tickets) t) (hr : machine.AtRest Asleep t) : Stalled t := by
  have hall := finished_or_asleep h hr
  intro p hp
  refine (hall p hp).imp_right fun ha => ha.resolve_right ?_
  rintro ⟨j, -, hu⟩
  exact decided_at_rest h hall j hu

namespace Stalled

theorem emptyHanded (hs : Stalled t) (hp : p ∈ t.actors) : p.EmptyHanded :=
  Pc.empty_handed ((hs p hp).imp_right fun ha => ⟨_, ha⟩)

/-- Nobody waits for what is already the case: he would have been notified. -/
theorem unmet (hs : Stalled t) (h : machine.Run Machine.free (init config tickets) t) {w : Wait}
    (hw : w.holds t.shared) (hp : p ∈ t.actors) : w.stamp p ≠ some t.shared.epoch :=
  (heard_of_run h w).quiet _
    (fun _ hq => Bool.eq_false_iff.mp ((hs.emptyHanded (Multiset.mem_coe.mp hq)).owes w)) hw (Multiset.mem_coe.mpr hp)

theorem inflightCount (hs : Stalled t) (inv : Consistent False False t.shared t.actors) :
    t.shared.acct.inflightCount = 0 :=
  (inv.gauged.eq_total (g := .inflight) (by rintro ⟨⟩)).trans
    (total_eq_zero_iff.mpr fun _ hp => (hs.emptyHanded (Multiset.mem_coe.mp hp)).inflight)

theorem exitingWorkers (hs : Stalled t) (inv : Consistent False False t.shared t.actors) :
    t.shared.state.exitingWorkers = 0 :=
  (inv.gauged.eq_total (g := .exitingWorkers) (by rintro ⟨⟩)).trans
    (total_eq_zero_iff.mpr fun _ hp => (hs.emptyHanded (Multiset.mem_coe.mp hp)).exiting)

theorem asleep (hs : Stalled t) (hp : p ∈ t.actors) (hl : 0 < Gauge.liveWorkers.weight p) :
    p.asleep t.shared.epoch = true := by
  rcases hs p hp with hf | ha
  · unfold Pc.finished at hf
    split at hf <;> first | cases hf; done | exact absurd hl (Nat.lt_irrefl 0)
  · unfold Pc.parkedAt at ha
    split at ha
    all_goals first
      | cases ha; done
      | exact absurd hl (Nat.lt_irrefl 0)
      | exact beq_iff_eq.mpr (Option.some.inj ha)

/-- No worker sleeps in a pool that is not running and has no submitter in flight. -/
theorem liveWorkers (hs : Stalled t) (h : machine.Run Machine.free (init config tickets) t)
    (hl : t.shared.state.lifecycle ≠ .running) : t.shared.state.liveWorkers = 0 := by
  have inv := Consistent.of_free_run h
  refine (inv.gauged.eq_total (g := .liveWorkers) (by rintro ⟨⟩)).trans
    (total_eq_zero_iff.mpr fun p hp => Nat.eq_zero_of_not_pos fun hpos => ?_)
  have hp := Multiset.mem_coe.mp hp
  have ha := hs.asleep hp hpos
  refine absurd ?_ (hs.unmet h (w := .orders) ⟨hl, hs.inflightCount inv⟩ hp)
  unfold Pc.asleep at ha
  split at ha
  · exact congrArg some (beq_iff_eq.mp ha)
  · exact congrArg some (beq_iff_eq.mp ha)
  · cases ha

/-- A running pool would have woken somebody for a queued job. -/
theorem queue_of_running (hs : Stalled t) (inv : Consistent False False t.shared t.actors)
    (hl : t.shared.state.lifecycle = .running) : t.shared.globalQueue = [] := by
  by_contra hne
  obtain ⟨j, hj⟩ := List.exists_mem_of_ne_nil _ hne
  refine inv.awake hj (Or.inl hl) (fun p hp ht => hs.asleep (Multiset.mem_coe.mp hp) ?_)
    (fun q hm => (hs.emptyHanded (Multiset.mem_coe.mp hm)).waking)
    (fun p hp => (hs.emptyHanded (Multiset.mem_coe.mp hp)).broadcasts)
  have hw := p.role_thread.2.1
  rw [ht, p.role_weights.2.2.1] at hw
  exact hw

/-- The stop call that has stored its lifecycle has returned after its drain. -/
theorem queue_of_stopping (hs : Stalled t) (h : machine.Run Machine.free (init config tickets) t)
    (hl : 2 ≤ t.shared.state.lifecycle.rank) : t.shared.globalQueue = [] := by
  obtain ⟨p, hp, hst⟩ := stop_of_stopping h hl
  have hk := stopStage_of_run h p hp
  rcases hs p hp with hf | ha
  · unfold Pc.finished at hf
    split at hf <;> first | cases hf; done | exact absurd rfl hst | exact hk.2.2
  · unfold Pc.parkedAt at ha
    split at ha
    all_goals first
      | cases ha; done
      | exact absurd rfl hst
      | exact absurd ha (hs.unmet h (w := .departure) (hs.inflightCount (.of_free_run h)) hp)

end Stalled

/-- A graceful shutdown that has run out of workers has run out of jobs. -/
theorem queue_of_deserted (h : machine.Run DrainedAtExit (init config tickets) t)
    (hl : t.shared.state.lifecycle = .shuttingDown) (hw : t.shared.state.liveWorkers = 0) :
    t.shared.globalQueue = [] := by
  have inv : Consistent True False t.shared t.actors :=
    .of_run (h.weaken fun _ _ _ _ hok => ⟨fun _ => hok, False.elim⟩)
  refine (inv.deserted trivial hl fun p hp ht => ?_).1
  rw [(Consistent.of_free_run h.free).thread_false hw p hp] at ht
  cases ht

theorem queue_at_rest (h : machine.Run Machine.free (init config tickets) t)
    (hd : t.shared.state.lifecycle = .shuttingDown → machine.Run DrainedAtExit (init config tickets) t)
    (hs : Stalled t) : t.shared.globalQueue = [] := by
  cases hl : t.shared.state.lifecycle with
  | running => exact hs.queue_of_running (.of_free_run h) hl
  | shuttingDown => exact queue_of_deserted (hd hl) hl (hs.liveWorkers h (by simp [hl]))
  | stopping | terminated => exact hs.queue_of_stopping h (by simp [hl, ExecutorServiceLifecycle.rank])

/-- What is left of a pool at rest: idle workers and observers of a running pool, or
nothing at all. -/
structure Resting (sh : Shared) (ps : Multiset Pc) : Prop where
  finished : AllFinished sh.history
  idle : ∀ r : IdleRead, r.value sh.acct = 0
  left : ∀ p ∈ ps, p.finished = true ∨ sh.state.lifecycle = .running ∧
    ∃ e, (∃ timed, p = .worker (.parked timed e)) ∨ p = .observe (.parked e)
  ended : sh.state.lifecycle ≠ .running → Terminated sh

theorem Resting.of_run (h : machine.Run Machine.free (init config tickets) t)
    (hd : t.shared.state.lifecycle = .shuttingDown → machine.Run DrainedAtExit (init config tickets) t)
    (hr : machine.AtRest Asleep t) : Resting t.shared t.actors := by
  have inv := Consistent.of_free_run h
  have hs := stalled_at_rest h hr
  have hin := hs.inflightCount inv
  have hq := queue_at_rest h hd hs
  have hidle : ∀ r : IdleRead, r.value t.shared.acct = 0 := by
    intro r
    by_cases hne : r = .inflight
    · exact hne ▸ hin
    · refine inv.recorded.law.idle hq (fun e he => ?_) hne
      obtain ⟨p, hp, he⟩ := Multiset.mem_bind.mp he
      exact (hs.emptyHanded (Multiset.mem_coe.mp hp)).holdings e he
  have hended : t.shared.state.lifecycle ≠ .running → Terminated t.shared := fun hl =>
    ⟨⟨hl, hs.liveWorkers h hl, hs.exitingWorkers inv⟩, inv.closed hl, fun r _ => hidle r⟩
  refine ⟨inv.recorded.law.quiet_finished (hidle .slots) (hidle .running), hidle, fun p hm => ?_, hended⟩
  have hp := Multiset.mem_coe.mp hm
  rcases hs p hp with hf | ha
  · exact Or.inl hf
  unfold Pc.parkedAt at ha
  split at ha
  · rename_i timed e
    exact Or.inr ⟨by_contra fun hl => hs.unmet h (w := .orders) ⟨hl, hin⟩ hp ha, e, Or.inl ⟨timed, rfl⟩⟩
  · rename_i e
    exact absurd ha (hs.unmet h (w := .orders) ⟨draining_of_run h _ hp ⟨e, rfl⟩, hin⟩ hp)
  · exact absurd ha (hs.unmet h (w := .departure) hin hp)
  · exact absurd ha (hs.unmet h (w := .quiescence) hidle hp)
  · rename_i e
    exact Or.inr ⟨by_contra fun hl => hs.unmet h (w := .termination) (hended hl) hp ha, e, Or.inr rfl⟩
  · cases ha

/-- The pool comes to rest only when its work is done: every accepted job is accounted for,
no call is left behind but that of an observer that waits for the end of a running pool, and
once the pool is not running every worker is gone. -/
theorem settled_at_rest (h : machine.Run Machine.free (init config tickets) t)
    (hd : t.shared.state.lifecycle = .shuttingDown → machine.Run DrainedAtExit (init config tickets) t)
    (hr : machine.AtRest Asleep t) : AllFinished t.shared.history ∧
      t.shared.acct.count .submitted = t.shared.acct.count .completed + t.shared.acct.count .cancelled ∧
      (t.shared.state.lifecycle = .running → ∀ p ∈ t.actors, p.finished = true ∨
        ∃ e, (∃ timed, p = .worker (.parked timed e)) ∨ p = .observe (.parked e)) ∧
      (t.shared.state.lifecycle ≠ .running → Terminated t.shared ∧ ∀ p ∈ t.actors, p.finished = true) := by
  have q := Resting.of_run h hd hr
  refine ⟨q.finished, ?_, fun _ p hp => (q.left p hp).imp_right And.right, fun hl => ⟨q.ended hl, fun p hp => ?_⟩⟩
  · exact (Consistent.of_free_run h).recorded.law.quiet_balance (q.idle .slots) (q.idle .running)
  · exact (q.left p hp).resolve_right fun hrun => hl hrun.1

end

/-- The worker runs job 0 and exits after the shutdown. -/
theorem settled_at_rest_drained : ∃ t, machine.Run Machine.free (init soleWorker fun _ => false) t ∧
    machine.AtRest Asleep t ∧ t.shared.state.lifecycle = .shuttingDown ∧ Terminated t.shared := by
  have hexec : (machine.exec DrainedAtExit (init soleWorker fun _ => false)
      (drainedSchedule ++ turns 1 18 Outcome.ok)).map (fun t => (t.shared.state.lifecycle, t.actors)) =
      some (.shuttingDown, [.submit 0 (.returned none), .worker .exited, .shutdown .returned]) := by
    decide
  obtain ⟨t, hrun, ht⟩ := machine.exec_reaches hexec
  obtain ⟨hl, hp⟩ := Prod.mk.inj ht
  have hrest : machine.AtRest Asleep t := by
    intro p hm
    simp only [hp, List.mem_cons, List.not_mem_nil, or_false] at hm
    rcases hm with rfl | rfl | rfl
    all_goals exact Or.inr fun c => rfl
  exact ⟨t, hrun.free, hrest, hl, ((settled_at_rest hrun.free (fun _ => hrun) hrest).2.2.2 (by simp [hl])).1⟩

section
variable {config : ThreadPoolConfig} {tickets : JobId → Bool} {s t : State Shared Pc}

/-- No worker of a running pool has ever drained. -/
theorem drained_of_running (h : machine.Run Machine.free (init config tickets) t)
    (hl : t.shared.state.lifecycle = .running) : machine.Run DrainedAtExit (init config tickets) t := by
  induction h with
  | refl => exact .refl
  | @tail u v hu hf ih =>
    have inv := Consistent.of_free_run hu
    cases hf with
    | @act i c p r hp hs _ =>
      obtain ⟨e, he, rfl⟩ := Option.map_eq_some_iff.mp hs
      have hrun : u.shared.state.lifecycle = .running := by
        by_contra hn
        exact (step_effect he).not_running hn hl
      refine (ih hrun).tail (.act hp hs fun hd => ?_)
      subst hd
      have := inv.known _ (Multiset.mem_coe.mpr (List.mem_of_getElem? hp)) rfl
      rw [hrun] at this
      cases this
    | call hc =>
      rw [invoke_same hc] at hl
      exact (ih hl).tail (.call hc)

/-- No submission is under way, and a worker that has found nothing queued is still right. -/
def Undisturbed (sh : Shared) (ps : Multiset Pc) : Prop :=
  (∀ p ∈ ps, ∀ j, p.call = some (.submit j) → p.finished = true) ∧
    (.worker .drainInflight ∈ ps → sh.acct.queuedCount = 0)

/-- Nothing is queued when a worker goes on to read the in-flight count. -/
theorem drainInflight_step (h : step sh c p = some (sh', .worker .drainInflight)) : sh.acct.queuedCount = 0 := by
  obtain ⟨w, rfl, hw⟩ := worker_step h rfl
  exact (workerStep_arrives hw).2.2

theorem undisturbed_step (inv : Consistent False False sh (p ::ₘ rest)) (hu : Undisturbed sh (p ::ₘ rest))
    (h : step sh c p = some (sh', p')) : Undisturbed sh' (p' ::ₘ (↑(spawned p c) + rest)) := by
  have hn := inv.sound_step h
  have hself : ∀ j, p.call ≠ some (.submit j) := by
    intro j hc
    have hf := hu.1 p (Multiset.mem_cons_self p rest) j hc
    unfold Pc.finished at hf
    split at hf <;> first | cases hf; done | cases hc; done | cases h
  have hqueued : sh'.acct.queuedCount ≤ sh.acct.queuedCount := by
    refine ((step_effect h).count .queued).resolve_right fun hp => ?_
    unfold Pc.raises at hp
    split at hp <;> first | cases hp; done | exact hself _ rfl
  have hnew : ∀ q ∈ (↑(spawned p c) : Multiset Pc), q = .worker .start :=
    fun q hq => Consistent.spawned_fresh (Multiset.mem_coe.mp hq)
  refine ⟨fun q hq j hc => ?_, fun hm => ?_⟩
  · rcases Multiset.mem_cons.mp hq with rfl | hq
    · exact absurd (((step_work h).caller hn).symm.trans hc) (hself j)
    · rcases Multiset.mem_add.mp hq with hq | hq
      · rw [hnew q hq] at hc
        cases hc
      · exact hu.1 q (Multiset.mem_cons_of_mem hq) j hc
  · suffices sh.acct.queuedCount = 0 by omega
    rcases Multiset.mem_cons.mp hm with rfl | hm
    · exact drainInflight_step h
    · rcases Multiset.mem_add.mp hm with hm | hm
      · cases hnew _ hm
      · exact hu.2 (Multiset.mem_cons_of_mem hm)

/-- The pool's handle is dropped while it is running and no call on it is under way:
everybody else is a worker, has finished or has the ticket of a job. -/
structure Droppable (s : State Shared Pc) : Prop where
  running : s.shared.state.lifecycle = .running
  unused : ∀ p ∈ s.actors, p.thread = true ∨ p.finished = true ∨ ∃ j, p.call = some (.ticket j)

/-- `ThreadPool::drop` calls `shutdown`. -/
def drop (s : State Shared Pc) : State Shared Pc := ⟨s.shared, s.actors ++ [.shutdown .close]⟩

def Op.onTicket : Op → Bool
  | .cancelQueued _ _ => true
  | _ => false

/-- The machine of a pool whose handle is gone; its workers keep the pool itself. -/
abbrev orphan : Interleaving.Machine Shared Pc Outcome Op := machine.only fun op => op.onTicket = true

theorem drop_undisturbed (hs : machine.Run Machine.free (init config tickets) s) (hd : Droppable s)
    (h : orphan.Run Machine.free (drop s) t) : machine.Run DrainedAtExit (init config tickets) t ∧
      Undisturbed t.shared t.actors ∧ ∃ p ∈ t.actors, p.call = some Call.shutdown := by
  have hcall : machine.call s.shared Op.shutdown = some (s.shared, Pc.shutdown .close) := rfl
  induction h with
  | refl =>
    refine ⟨(drained_of_running hs hd.running).tail (.call hcall), ⟨fun p hm j hc => ?_, fun hm => ?_⟩, _,
      List.mem_append_right _ (List.mem_singleton_self _), rfl⟩
    all_goals rcases List.mem_append.mp (Multiset.mem_coe.mp hm) with hm | hm
    · rcases hd.unused p hm with ht | hf | ⟨i, hi⟩
      · rw [Pc.call] at hc
        rw [Pc.thread] at ht
        cases hp : p.home <;> simp [hp, Pc.isThread, Pc.directCall] at ht hc
      · exact hf
      · cases hi.symm.trans hc
    · rw [List.mem_singleton.mp hm] at hc
      cases hc
    · have := (Consistent.of_free_run hs).known _ (Multiset.mem_coe.mpr hm) rfl
      rw [hd.running] at this
      cases this
    · cases List.mem_singleton.mp hm
  | @tail u v hu hf ih =>
    obtain ⟨hrun, hund, p₀, hp₀, hcall⟩ := ih
    have inv := Consistent.of_free_run hrun.free
    cases hf with
    | @act i c p r hp hst _ =>
      obtain ⟨rest, hrest, hrest'⟩ := Machine.coe_set_append r.2.1 r.2.2 hp
      obtain ⟨e, he, rfl⟩ := Option.map_eq_some_iff.mp hst
      rw [hrest] at hund inv
      refine ⟨hrun.tail (.act hp hst fun hpc _ _ => ?_), ?_, ?_⟩
      · subst hpc
        exact hund.2 (Multiset.mem_cons_self _ rest)
      · simp only [hrest']
        exact undisturbed_step inv hund he
      · have hm := Multiset.mem_coe.mpr hp₀
        rw [hrest] at hm
        rcases Multiset.mem_cons.mp hm with rfl | hm
        · refine ⟨e.2, Multiset.mem_coe.mp (hrest'.symm ▸ Multiset.mem_cons_self _ _), ?_⟩
          exact ((step_work he).caller (inv.sound_step he)).trans hcall
        · have hmem : p₀ ∈ e.2 ::ₘ (↑(spawned p c) + rest) :=
            Multiset.mem_cons_of_mem (Multiset.mem_add.mpr (Or.inr hm))
          exact ⟨p₀, Multiset.mem_coe.mp (hrest'.symm ▸ hmem), hcall⟩
    | @call op r hc =>
      obtain ⟨hop, hc⟩ := Machine.only_call hc
      refine ⟨hrun.tail (.call hc), ?_, p₀, List.mem_append_left _ hp₀, hcall⟩
      cases op with
      | cancelQueued j caller =>
        simp only [machine, invoke] at hc
        split at hc <;> cases hc
        refine ⟨fun p hm i hi => ?_, fun hm => ?_⟩
        all_goals rcases List.mem_append.mp (Multiset.mem_coe.mp hm) with hm | hm
        · exact hund.1 p (Multiset.mem_coe.mpr hm) i hi
        · rw [List.mem_singleton.mp hm] at hi
          cases hi
        · exact hund.2 (Multiset.mem_coe.mpr hm)
        · cases List.mem_singleton.mp hm
      | _ => cases hop

end

end ThreadPools.Dynamic
