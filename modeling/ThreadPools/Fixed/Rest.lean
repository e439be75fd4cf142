import ThreadPools.Fixed.Notifications
import ThreadPools.Fixed.Ownership
import ThreadPools.Interleaving.Rest

/-! # The fixed pool rests only when its work is done -/
namespace ThreadPools.Fixed
open Interleaving
open Move (call)

variable {sh sh' : Shared} {p p' q : Pc} {ps rest : Multiset Pc} {c : Outcome} {j : JobId}

def Pc.finished : Pc → Bool
  | .submit _ (.returned _) | .worker .exited | .shutdown .returned | .stop (.returned _) | .join .returned
  | .observe (.returned _) | .observe (.returnedLifecycle _) => true
  | _ => false

def Pc.parkedAt : Pc → Option ℕ
  | .worker (.parked e) | .worker (.drainParked e) | .stop (.parked _ e) | .join (.parked e)
  | .observe (.parked e) => some e
  | _ => none

def Asleep (sh : Shared) (p : Pc) : Prop := p.parkedAt = some sh.epoch

theorem Pc.enabled (hf : p.finished = false) (hn : ∀ e, p ≠ .panicked e)
    (hl : sh.locked = true → p.locks = true) : ∃ r, step sh .ok p = some r := by
  have hfree : p.locks = false → sh.locked = false := by
    intro h
    cases hs : sh.locked with
    | false => rfl
    | true => simp [h] at hl; simp [hs] at hl
  cases p with
  | submit j p =>
    cases p with
    | returned result => cases hf
    | rollbackNotify | broadcast | departNotify =>
      simp [step, submitStep, Shared.withLock, hfree rfl]
    | enter | reserve | raiseToken | loadIdle | leave =>
      simp only [step, submitStep]
      split <;> exact ⟨_, rfl⟩
    | _ => exact ⟨_, rfl⟩
  | worker p =>
    cases p with
    | exited => cases hf
    | lockState | relock | parked | drainParked => simp [step, workerStep, Shared.lock, hfree rfl]
    | finishNotify => simp [step, workerStep, Shared.withLock, hfree rfl]
    | exit =>
      simp only [step, workerStep, hfree rfl, Bool.false_eq_true, if_false]
      split <;> exact ⟨_, rfl⟩
    | steal | dispatch | waitQueued | unmark | drainInflight =>
      simp only [step, workerStep]
      split <;> exact ⟨_, rfl⟩
    | _ => exact ⟨_, rfl⟩
  | shutdown p =>
    cases p with
    | close => exact ⟨_, rfl⟩
    | lockState => simp [step, shutdownStep, Shared.withLock, hfree rfl]
    | returned => cases hf
  | stop p =>
    cases p with
    | returned => cases hf
    | lockState | parked => simp [step, stopStep, Shared.lock, hfree rfl]
    | finalNotify => simp [step, stopStep, Shared.withLock, hfree rfl]
    | subWaiter | drain | begin | next =>
      simp only [step, stopStep]
      split <;> exact ⟨_, rfl⟩
    | _ => exact ⟨_, rfl⟩
  | cancel p k =>
    cases p with
    | notify => simp [step, cancelStep, Shared.withLock, hfree rfl]
    | done => cases k <;> exact ⟨_, rfl⟩
    | _ => exact ⟨_, rfl⟩
  | join p =>
    cases p with
    | returned => cases hf
    | lockState | parked => simp [step, joinStep, Shared.lock, hfree rfl]
    | subWaiter =>
      simp only [step, joinStep]
      split <;> exact ⟨_, rfl⟩
    | _ => exact ⟨_, rfl⟩
  | observe p =>
    cases p with
    | returned | returnedLifecycle => cases hf
    | lockState | parked => simp [step, observeStep, Shared.lock, hfree rfl]
    | term =>
      simp only [step, observeStep]
      split <;> exact ⟨_, rfl⟩
    | unlock o b => cases o <;> exact ⟨_, rfl⟩
    | park => exact ⟨_, rfl⟩
  | idle r k => exact ⟨_, rfl⟩
  | panicked e => exact absurd rfl (hn e)

/-- A worker that has found the pool not running and has released the monitor since. -/
def Pc.leaving : Pc → Bool
  | .worker (.drainParked _) | .worker .stopHook | .worker .exit | .worker .exited => true
  | _ => false

theorem leaving_step (hk : Known sh p) (h : step sh c p = some (sh', p')) (hl : p'.leaving = true) :
    p.leaving = true ∨ sh.state.lifecycle ≠ .running := by
  unfold Pc.leaving at hl
  split at hl
  · obtain ⟨w, rfl, hw⟩ := worker_step h rfl
    obtain ⟨rfl, -⟩ := workerStep_arrives hw
    exact Or.inr (by simp [hk rfl])
  · obtain ⟨w, rfl, hw⟩ := worker_step h rfl
    rcases workerStep_arrives hw with rfl | ⟨rfl, hs⟩
    · exact Or.inr (by simp [hk rfl])
    · exact Or.inr hs
  · obtain ⟨w, rfl, hw⟩ := worker_step h rfl
    obtain rfl := workerStep_arrives hw
    exact Or.inl rfl
  · obtain ⟨w, rfl, hw⟩ := worker_step h rfl
    obtain rfl := workerStep_arrives hw
    exact Or.inl rfl
  · cases hl

theorem drainInflight_step (h : step sh c p = some (sh', .worker .drainInflight)) : sh.acct.queuedCount = 0 := by
  obtain ⟨w, rfl, hw⟩ := worker_step h rfl
  exact (workerStep_arrives hw).2.2

section
variable {config : FixedThreadPoolConfig} {ok : Machine.Guard Shared Pc Outcome} {t : State Shared Pc}

/-- All workers stay registered as long as the pool is running. -/
theorem crew_complete (h : machine.Run ok (init config) t) : (∀ p ∈ t.actors, p.leaving = true →
    t.shared.state.lifecycle ≠ .running) ∧
      (t.shared.state.lifecycle = .running → t.shared.state.liveWorkers = config.poolSize) := by
  refine invariant_along (J := fun sh ps => (∀ p ∈ ps, p.leaving = true → sh.state.lifecycle ≠ .running) ∧
    (sh.state.lifecycle = .running → sh.state.liveWorkers = config.poolSize)) .refl ?_ ?_ h ⟨?_, fun _ => rfl⟩
  · intro sh p rest c sh' p' inv hJ _ hm
    obtain ⟨hout, hlive⟩ := hJ
    have eff := step_effect hm
    refine ⟨fun q hq hl => ?_, fun hrun => ?_⟩
    · rcases Multiset.mem_cons.mp hq with rfl | hq
      · rcases leaving_step (inv.known p (Multiset.mem_cons_self p rest)) hm hl with hp | hs
        · exact eff.not_running (hout p (Multiset.mem_cons_self p rest) hp)
        · exact eff.not_running hs
      · exact eff.not_running (hout q (Multiset.mem_cons_of_mem hq) hl)
    · have hrun' : sh.state.lifecycle = .running := by
        by_contra hs
        exact eff.not_running hs hrun
      rcases (step_relief hm).live with hle | rfl
      · have := eff.live
        rw [← hlive hrun']
        omega
      · exact absurd hrun' (hout _ (Multiset.mem_cons_self _ rest) rfl)
  · intro sh ps op sh' p _ hJ hm
    have hs : sh'.state = sh.state := by rw [invoke_same hm]
    rw [hs]
    refine ⟨fun q hq hl => ?_, hJ.2⟩
    rcases Multiset.mem_cons.mp hq with rfl | hq
    · cases op with
      | submit j =>
        simp only [invoke] at hm
        split at hm <;> cases hm
        cases hl
      | _ =>
        cases hm
        cases hl
    · exact hJ.1 q hq hl
  · intro p hp hl
    rw [List.eq_of_mem_replicate (Multiset.mem_coe.mp hp)] at hl
    cases hl

def Pc.commands : Pc → Bool
  | .stop p => p.stopped
  | .cancel _ (.stop _ _ _) => true
  | _ => false

theorem commands_step (h : step sh c p = some (sh', p')) (hn : ∀ e, p' ≠ .panicked e)
    (hp : p.commands = true ∨ ∃ info, p = .stop (.lockState info)) : p'.commands = true := by
  rcases hp with hp | ⟨info, rfl⟩
  · cases p with
    | stop p =>
      cases p with
      | next jobs report => cases jobs <;> cases h <;> rfl
      | beforeCancelling | beforeCancelled | close | storeStop | lockState => cases hp
      | _ =>
        simp only [step, stopStep, Shared.lock, Shared.withLock, Shared.lower] at h
        repeat' split at h
        all_goals cases h
        all_goals first | rfl | exact absurd rfl (hn _)
    | cancel p k =>
      cases k with
      | worker j => cases hp
      | stop j rest report =>
        cases p <;> simp only [step, cancelStep, Shared.withLock, Shared.lower] at h
        all_goals repeat' split at h
        all_goals cases h
        all_goals first | rfl | exact absurd rfl (hn _)
    | _ => cases hp
  · obtain ⟨s, -, h⟩ := Option.map_eq_some_iff.mp h
    cases hl : s.state.lifecycle <;> simp only [hl] at h <;> cases h <;> rfl

/-- The Stopping lifecycle has been stored by a stop call that is still there. -/
theorem stop_of_stopping (h : machine.Run ok (init config) t) (hl : 2 ≤ t.shared.state.lifecycle.rank) :
    ∃ p ∈ t.actors, p.commands = true := by
  refine invariant_along (J := fun sh ps => 2 ≤ sh.state.lifecycle.rank → ∃ p ∈ ps, p.commands = true)
    .refl ?_ ?_ h ?_ hl
  · intro sh p rest c sh' p' inv hJ _ hm hl
    have hn := inv.sound_step hm
    have keep : (p.commands = true ∨ ∃ info, p = .stop (.lockState info)) →
        ∃ q ∈ p' ::ₘ rest, q.commands = true := fun hp =>
      ⟨p', Multiset.mem_cons_self p' rest, commands_step hm hn hp⟩
    have old : 2 ≤ sh.state.lifecycle.rank → ∃ q ∈ p' ::ₘ rest, q.commands = true := by
      intro hl
      obtain ⟨q, hq, hc⟩ := hJ hl
      rcases Multiset.mem_cons.mp hq with rfl | hq
      · exact keep (Or.inl hc)
      · exact ⟨q, Multiset.mem_cons_of_mem hq, hc⟩
    rcases (step_relief hm).lifecycle with he | rfl | ⟨info, rfl⟩
    · exact old (he ▸ hl)
    · refine old ?_
      obtain ⟨s, hs, hm⟩ := Option.map_eq_some_iff.mp hm
      obtain ⟨-, rfl⟩ := sh.withLock_eq_some hs
      cases hm
      split at hl
      · simp [Shared.setLifecycle, Shared.notifyAll, ExecutorServiceLifecycle.rank] at hl
      · exact hl
    · exact keep (Or.inr ⟨info, rfl⟩)
  · intro sh ps op sh' p _ hJ hm hl
    rw [invoke_same hm] at hl
    obtain ⟨q, hq, hc⟩ := hJ hl
    exact ⟨q, Multiset.mem_cons_of_mem hq, hc⟩
  · simp [init, Shared.new, ExecutorServiceLifecycle.rank]

theorem Gauged.owner (law : Gauged sh ps) (hl : sh.locked = true) : ∃ p ∈ ps, p.locks = true := by
  have hg : (true).toNat = total (fun p : Pc => p.locks.toNat) ps := hl ▸ law .monitor
  exact total_toNat_pos.mp (Nat.lt_of_lt_of_eq Nat.one_pos hg)

/-- Nobody holds the monitor at rest, so only finished and sleeping actors are left. -/
theorem finished_or_asleep (hs : ∀ p ∈ t.actors, ∀ e, p ≠ .panicked e)
    (ho : t.shared.locked = true → ∃ p ∈ t.actors, p.locks = true) (hr : machine.AtRest Asleep t) :
    t.shared.locked = false ∧ ∀ p ∈ t.actors, p.finished = true ∨ Asleep t.shared p := by
  have able : ∀ p ∈ t.actors, p.finished = false → (t.shared.locked = true → p.locks = true) →
      ∃ c r, machine.step t.shared p c = some r := by
    intro p hp hf hl
    obtain ⟨r, hr⟩ := Pc.enabled hf (hs p hp) hl
    exact ⟨.ok, _, Option.map_eq_some_iff.mpr ⟨r, hr, rfl⟩⟩
  have hfree : ¬ t.shared.locked = true := by
    refine hr.free (fun _ : Unit => 0) (fun _ => t.shared.locked = true) (fun p _ => p.locks = false)
      (fun p _ => p.locks = true) (fun _ => Nat.one_pos) (fun _ hl => ho hl) (fun p _ _ _ hw hh => absurd (hw.symm.trans hh) Bool.false_ne_true)
      (fun p hp ho _ => ?_) ()
    obtain ⟨-, ho⟩ := ho
    refine ⟨fun ha => ?_, able p hp ?_ fun _ => ho⟩
    · unfold Asleep Pc.parkedAt at ha
      split at ha <;> first | cases ha; done | cases ho
    · cases hf : p.finished with
      | false => rfl
      | true =>
        unfold Pc.finished at hf
        split at hf <;> first | cases hf; done | cases ho
  refine ⟨Bool.eq_false_iff.mpr hfree, fun p hp => ?_⟩
  cases hf : p.finished with
  | true => exact Or.inl rfl
  | false =>
    obtain ⟨c, r, hs⟩ := able p hp hf fun hl => absurd hl hfree
    rcases hr p hp with ha | hn
    · exact Or.inr ha
    · rw [hn c] at hs
      cases hs

structure Pc.EmptyHanded (p : Pc) : Prop where
  inside : p.inside = false
  owes : ∀ w, p.owes w = false
  waking : p.waking = false
  broadcasts : p.broadcasts = false
  holdings : ∀ e ∈ p.holdings, ∃ error, e.2 = .rejected error

theorem Pc.empty_handed (h : p.finished = true ∨ ∃ e, p.parkedAt = some e) : p.EmptyHanded := by
  have hnone : ∀ e ∈ (0 : Book), ∃ error, e.2 = .rejected error := fun e he => absurd he (Multiset.notMem_zero e)
  rcases h with h | ⟨e, h⟩
  · unfold Pc.finished at h
    split at h
    · rename_i j result
      refine ⟨rfl, fun w => by cases w <;> rfl, rfl, rfl, fun e he => ?_⟩
      cases result with
      | none => exact hnone e he
      | some error =>
        obtain rfl := Multiset.mem_singleton.mp he
        exact ⟨error, rfl⟩
    all_goals first | cases h; done | exact ⟨rfl, fun w => by cases w <;> rfl, rfl, rfl, hnone⟩
  · unfold Pc.parkedAt at h
    split at h
    all_goals first | cases h; done | exact ⟨rfl, fun w => by cases w <;> rfl, rfl, rfl, hnone⟩

def Stalled (t : State Shared Pc) : Prop := ∀ p ∈ t.actors, p.finished = true ∨ Asleep t.shared p

theorem stalled_at_rest (h : machine.Run ok (init config) t) (hr : machine.AtRest Asleep t) : Stalled t := by
  have inv := Consistent.of_free_run h.free
  exact (finished_or_asleep (fun p hp => inv.sound p (Multiset.mem_coe.mpr hp)) inv.gauged.owner hr).2

namespace Stalled

theorem emptyHanded (hs : Stalled t) (hp : p ∈ t.actors) : p.EmptyHanded :=
  Pc.empty_handed ((hs p hp).imp_right fun ha => ⟨_, ha⟩)

/-- Nobody waits for what is already the case: he would have been notified. -/
theorem unmet (hs : Stalled t) (h : machine.Run Machine.free (init config) t) {w : Wait}
    (hw : w.holds t.shared) (hp : p ∈ t.actors) : w.stamp p ≠ some t.shared.epoch :=
  (heard_of_run h w).quiet _
    (fun _ hq => Bool.eq_false_iff.mp ((hs.emptyHanded (Multiset.mem_coe.mp hq)).owes w)) hw (Multiset.mem_coe.mpr hp)

theorem inflightCount (hs : Stalled t) (inv : Consistent False False t.shared t.actors) :
    t.shared.acct.inflightCount = 0 := by
  refine (inv.gauged .inflight).trans (total_eq_zero_iff.mpr fun p hp => ?_)
  simp [Gauge.weight, (hs.emptyHanded (Multiset.mem_coe.mp hp)).inside]

theorem asleep (hs : Stalled t) (hp : p ∈ t.actors) (hl : p.live = true) : p.asleep t.shared.epoch = true := by
  rcases hs p hp with hf | ha
  · unfold Pc.finished at hf
    split at hf <;> first | cases hf; done | cases hl
  · unfold Asleep Pc.parkedAt at ha
    split at ha
    all_goals first | cases hl; done | cases ha; done | exact beq_iff_eq.mpr (Option.some.inj ha)

/-- No worker sleeps in a pool that is not running and has no submitter in flight. -/
theorem liveWorkers (hs : Stalled t) (h : machine.Run Machine.free (init config) t)
    (hl : t.shared.state.lifecycle ≠ .running) : t.shared.state.liveWorkers = 0 := by
  have inv := Consistent.of_free_run h
  refine (inv.gauged .liveWorkers).trans (total_eq_zero_iff.mpr fun p hp => ?_)
  have hp := Multiset.mem_coe.mp hp
  cases hlp : p.live with
  | false => simp [Gauge.weight, hlp]
  | true =>
    have ha := hs.asleep hp hlp
    refine absurd ?_ (hs.unmet h (w := .orders) ⟨hl, hs.inflightCount inv⟩ hp)
    unfold Pc.asleep at ha
    split at ha
    · exact congrArg some (beq_iff_eq.mp ha)
    · exact congrArg some (beq_iff_eq.mp ha)
    · cases ha

/-- A running pool would have woken somebody for a queued job. -/
theorem queue_of_running (hs : Stalled t) (inv : Consistent False False t.shared t.actors)
    (hl : t.shared.state.lifecycle = .running) : t.shared.globalQueue = [] := by
  by_contra hne
  obtain ⟨j, hj⟩ := List.exists_mem_of_ne_nil _ hne
  exact inv.awake hj (Or.inl hl) (fun p hp => hs.asleep (Multiset.mem_coe.mp hp))
    (fun q hm => (hs.emptyHanded (Multiset.mem_coe.mp hm)).waking)
    (fun p hp => (hs.emptyHanded (Multiset.mem_coe.mp hp)).broadcasts)

/-- The stop call that has stored its lifecycle has returned after its drain. -/
theorem queue_of_stopping (hs : Stalled t) (h : machine.Run Machine.free (init config) t)
    (hl : 2 ≤ t.shared.state.lifecycle.rank) : t.shared.globalQueue = [] := by
  obtain ⟨p, hp, hc⟩ := stop_of_stopping h hl
  refine ((stops_of_run h p hp).2 ?_).2
  rcases hs p hp with hf | ha
  · unfold Pc.finished at hf
    split at hf <;> first | cases hf; done | cases hc; done | rfl
  · unfold Asleep Pc.parkedAt at ha
    split at ha
    all_goals first
      | cases hc; done
      | cases ha; done
      | exact absurd ha (hs.unmet h (w := .departure) (hs.inflightCount (.of_free_run h)) hp)

end Stalled

/-- A graceful shutdown that has run out of workers has run out of jobs. -/
theorem queue_of_deserted (h : machine.Run DrainedAtExit (init config) t)
    (hl : t.shared.state.lifecycle = .shuttingDown) (hw : t.shared.state.liveWorkers = 0) :
    t.shared.globalQueue = [] := by
  have hsize := poolSize_eq h
  have inv : Consistent (t.shared.poolSize = 1) False t.shared t.actors := by
    refine .of_run (h.weaken_along fun u hu p c hok => ⟨fun hg hp hz => hok hp hz ?_, False.elim⟩)
    rw [poolSize_eq hu, ← hsize]
    exact hg
  have hg : t.shared.poolSize = 1 ∨ 2 ≤ t.shared.poolSize := by
    have := config.poolSize_pos
    omega
  exact (inv.deserted hg hl hw).1

theorem queue_at_rest (h : machine.Run Machine.free (init config) t)
    (hd : t.shared.state.lifecycle = .shuttingDown → machine.Run DrainedAtExit (init config) t)
    (hs : Stalled t) : t.shared.globalQueue = [] := by
  cases hl : t.shared.state.lifecycle with
  | running => exact hs.queue_of_running (.of_free_run h) hl
  | shuttingDown => exact queue_of_deserted (hd hl) hl (hs.liveWorkers h (by simp [hl]))
  | stopping | terminated => exact hs.queue_of_stopping h (by simp [hl, ExecutorServiceLifecycle.rank])

structure Resting (config : FixedThreadPoolConfig) (sh : Shared) (ps : Multiset Pc) : Prop where
  finished : AllFinished sh.history
  idle : ∀ r : IdleRead, r.value sh.acct = 0
  crew : sh.state.lifecycle = .running → sh.state.liveWorkers = config.poolSize
  left : ∀ p ∈ ps, p.finished = true ∨ sh.state.lifecycle = .running ∧
    ∃ e, p = .worker (.parked e) ∨ p = .observe (.parked e)
  ended : sh.state.lifecycle ≠ .running → Terminated sh

theorem Resting.of_run (h : machine.Run Machine.free (init config) t)
    (hd : t.shared.state.lifecycle = .shuttingDown → machine.Run DrainedAtExit (init config) t)
    (hr : machine.AtRest Asleep t) : Resting config t.shared t.actors := by
  have inv := Consistent.of_free_run h
  have hs := stalled_at_rest h hr
  have hin := hs.inflightCount inv
  have hq := queue_at_rest h hd hs
  have hcrew := crew_complete h
  have hidle : ∀ r : IdleRead, r.value t.shared.acct = 0 := by
    intro r
    by_cases hne : r = .inflight
    · exact hne ▸ hin
    · refine Law.idle inv.recorded hq (fun e he => ?_) hne
      obtain ⟨p, hp, he⟩ := Multiset.mem_bind.mp he
      exact (hs.emptyHanded (Multiset.mem_coe.mp hp)).holdings e he
  have hended : t.shared.state.lifecycle ≠ .running → Terminated t.shared := fun hl =>
    ⟨⟨hl, hs.liveWorkers h hl⟩, inv.closed hl, fun r _ => hidle r⟩
  refine ⟨inv.recorded.quiet_finished (hidle .slots) (hidle .running), hidle, hcrew.2, fun p hm => ?_, hended⟩
  have hp := Multiset.mem_coe.mp hm
  rcases hs p hp with hf | ha
  · exact Or.inl hf
  unfold Asleep Pc.parkedAt at ha
  split at ha
  · rename_i e
    exact Or.inr ⟨by_contra fun hl => hs.unmet h (w := .orders) ⟨hl, hin⟩ hp ha, e, Or.inl rfl⟩
  · exact absurd ha (hs.unmet h (w := .orders) ⟨hcrew.1 _ hp rfl, hin⟩ hp)
  · exact absurd ha (hs.unmet h (w := .departure) hin hp)
  · exact absurd ha (hs.unmet h (w := .quiescence) hidle hp)
  · rename_i e
    exact Or.inr ⟨by_contra fun hl => hs.unmet h (w := .termination) (hended hl) hp ha, e, Or.inr rfl⟩
  · cases ha

/-- The pool comes to rest only when its work is done: every accepted job is accounted for,
and the workers are all there and idle or, once the pool is not running, all gone with every
call returned. -/
theorem rest_is_quiet (h : machine.Run Machine.free (init config) t)
    (hd : t.shared.state.lifecycle = .shuttingDown → machine.Run DrainedAtExit (init config) t)
    (hr : machine.AtRest Asleep t) : AllFinished t.shared.history ∧
      t.shared.acct.count .submitted = t.shared.acct.count .completed + t.shared.acct.count .cancelled ∧
      (t.shared.state.lifecycle = .running → t.shared.state.liveWorkers = config.poolSize ∧
        ∀ p ∈ t.actors, p.finished = true ∨ ∃ e, p = .worker (.parked e) ∨ p = .observe (.parked e)) ∧
      (t.shared.state.lifecycle ≠ .running → Terminated t.shared ∧ ∀ p ∈ t.actors, p.finished = true) := by
  have q := Resting.of_run h hd hr
  refine ⟨q.finished, ?_, fun hl => ⟨q.crew hl, fun p hp => (q.left p hp).imp_right And.right⟩, fun hl => ?_⟩
  · exact Law.quiet_balance (Consistent.of_free_run h).recorded (q.idle .slots) (q.idle .running)
  · exact ⟨q.ended hl, fun p hp => (q.left p hp).resolve_right fun hrun => hl hrun.1⟩

end

/-- The worker runs job 0 and exits after the shutdown. -/
theorem rest_is_quiet_drained : ∃ t, machine.Run Machine.free (init soleWorker) t ∧
    machine.AtRest Asleep t ∧ t.shared.state.lifecycle = .shuttingDown ∧ Terminated t.shared := by
  have hexec : (machine.exec DrainedAtExit (init soleWorker) drainedSchedule).map
      (fun t => (t.shared.state.lifecycle, t.actors)) = some (.shuttingDown,
        [.worker .exited, .submit 0 (.returned none), .shutdown .returned]) := by
    decide
  obtain ⟨t, hrun, ht⟩ := machine.exec_reaches hexec
  obtain ⟨hl, hp⟩ := Prod.mk.inj ht
  have hrest : machine.AtRest Asleep t := by
    intro p hm
    simp only [hp, List.mem_cons, List.not_mem_nil, or_false] at hm
    rcases hm with rfl | rfl | rfl
    all_goals exact Or.inr fun c => rfl
  exact ⟨t, hrun.free, hrest, hl, ((rest_is_quiet hrun.free (fun _ => hrun) hrest).2.2.2 (by simp [hl])).1⟩

section
variable {config : FixedThreadPoolConfig} {s t : State Shared Pc}

/-- No worker of a running pool has ever drained. -/
theorem drained_of_running (h : machine.Run Machine.free (init config) t)
    (hl : t.shared.state.lifecycle = .running) : machine.Run DrainedAtExit (init config) t := by
  induction h with
  | refl => exact .refl
  | @tail u v hu hf ih =>
    have inv := Consistent.of_free_run hu
    cases hf with
    | @act i c p r hp hs _ =>
      obtain ⟨e, he, rfl⟩ := Option.map_eq_some_iff.mp hs
      have hrun : u.shared.state.lifecycle = .running := by
        by_contra hn
        exact (step_effect he).not_running hn hl
      refine (ih hrun).tail (.act hp hs fun hd => ?_)
      subst hd
      have := inv.known _ (Multiset.mem_coe.mpr (List.mem_of_getElem? hp)) rfl
      rw [hrun] at this
      cases this
    | call hc =>
      rw [invoke_same hc] at hl
      exact (ih hl).tail (.call hc)

def Undisturbed (sh : Shared) (ps : Multiset Pc) : Prop :=
  (∀ j q, .submit j q ∈ ps → ∃ result, q = .returned result) ∧
    (.worker .drainInflight ∈ ps → sh.acct.queuedCount = 0)

theorem undisturbed_step (inv : Consistent False False sh (p ::ₘ rest)) (hu : Undisturbed sh (p ::ₘ rest))
    (h : step sh c p = some (sh', p')) : Undisturbed sh' (p' ::ₘ rest) := by
  have hn := inv.sound_step h
  have hself : ∀ j q, p ≠ .submit j q := by
    rintro j q rfl
    obtain ⟨result, rfl⟩ := hu.1 j q (Multiset.mem_cons_self _ rest)
    cases h
  have hqueued : sh'.acct.queuedCount ≤ sh.acct.queuedCount := by
    refine ((step_effect h).count .queued).resolve_right fun hp => ?_
    unfold Pc.raises at hp
    split at hp <;> first | cases hp; done | exact hself _ _ rfl
  refine ⟨fun j q hm => ?_, fun hm => ?_⟩
  · rcases Multiset.mem_cons.mp hm with rfl | hm
    · obtain ⟨q', rfl⟩ := Pc.eq_submit (((step_work h).caller hn).symm.trans rfl)
      exact absurd rfl (hself j q')
    · exact hu.1 j q (Multiset.mem_cons_of_mem hm)
  · suffices sh.acct.queuedCount = 0 by omega
    rcases Multiset.mem_cons.mp hm with rfl | hm
    · exact drainInflight_step h
    · exact hu.2 (Multiset.mem_cons_of_mem hm)

/-- The pool's handle is dropped while it is running and no call on it is under way:
everybody else is a worker or has finished. -/
structure Droppable (s : State Shared Pc) : Prop where
  running : s.shared.state.lifecycle = .running
  unused : ∀ p ∈ s.actors, p.live = true ∨ p.finished = true

/-- `FixedThreadPool::drop` calls `shutdown`, and no call follows it. -/
def drop (s : State Shared Pc) : State Shared Pc := ⟨s.shared, s.actors ++ [.shutdown .close]⟩

abbrev orphan : Interleaving.Machine Shared Pc Outcome Op := machine.only fun _ => False

theorem drop_undisturbed (hs : machine.Run Machine.free (init config) s) (hd : Droppable s)
    (h : orphan.Run Machine.free (drop s) t) : machine.Run DrainedAtExit (init config) t ∧
      Undisturbed t.shared t.actors ∧ ∃ p ∈ t.actors, p.call = some Call.shutdown := by
  have hcall : machine.call s.shared Op.shutdown = some (s.shared, Pc.shutdown .close) := rfl
  induction h with
  | refl =>
    refine ⟨(drained_of_running hs hd.running).tail (.call hcall), ⟨fun j q hm => ?_, fun hm => ?_⟩, _,
      List.mem_append_right _ (List.mem_singleton_self _), rfl⟩
    all_goals rcases List.mem_append.mp (Multiset.mem_coe.mp hm) with hm | hm
    · rcases hd.unused _ hm with hl | hf
      · cases hl
      · cases q with
        | returned result => exact ⟨result, rfl⟩
        | _ => cases hf
    · cases List.mem_singleton.mp hm
    · have := (Consistent.of_free_run hs).known _ (Multiset.mem_coe.mpr hm) rfl
      rw [hd.running] at this
      cases this
    · cases List.mem_singleton.mp hm
  | @tail u v hu hf ih =>
    obtain ⟨hrun, hund, p₀, hp₀, hcall⟩ := ih
    have inv := Consistent.of_free_run hrun.free
    cases hf with
    | @act i c p r hp hst _ =>
      obtain ⟨rest, hrest, hrest'⟩ := Machine.coe_set_append r.2.1 r.2.2 hp
      obtain ⟨e, he, rfl⟩ := Option.map_eq_some_iff.mp hst
      rw [hrest] at hund inv
      refine ⟨hrun.tail (.act hp hst fun hpc hz _ => ?_), ?_, ?_⟩
      · subst hpc
        exact hund.2 (Multiset.mem_cons_self _ rest)
      · simp only [hrest', Multiset.coe_nil, zero_add]
        exact undisturbed_step inv hund he
      · have hm := Multiset.mem_coe.mpr hp₀
        rw [hrest] at hm
        rcases Multiset.mem_cons.mp hm with rfl | hm
        · refine ⟨e.2, Multiset.mem_coe.mp (hrest'.symm ▸ Multiset.mem_cons_self _ _), ?_⟩
          exact ((step_work he).caller (inv.sound_step he)).trans hcall
        · have hmem : p₀ ∈ e.2 ::ₘ (↑([] : List Pc) + rest) := by simp [hm]
          exact ⟨p₀, Multiset.mem_coe.mp (hrest'.symm ▸ hmem), hcall⟩
    | call hc => exact (Machine.only_call hc).1.elim

/-- A dropped pool drains: it does not come to rest before every accepted job is finished
and every worker has ended. -/
theorem drop_drains (hs : machine.Run Machine.free (init config) s) (hd : Droppable s)
    (h : orphan.Run Machine.free (drop s) t) (hr : machine.AtRest Asleep t) :
    AllFinished t.shared.history ∧ Terminated t.shared ∧ ∀ p ∈ t.actors, p.finished = true := by
  obtain ⟨hrun, -, p, hp, hcall⟩ := drop_undisturbed hs hd h
  have q := Resting.of_run hrun.free (fun _ => hrun) hr
  have hl : t.shared.state.lifecycle ≠ .running := by
    rcases q.left p hp with hf | ⟨-, e, rfl | rfl⟩
    · refine (informed_of_run hrun p hp).issued ?_
      unfold Pc.finished at hf
      split at hf <;> first | rfl | cases hf; done | cases hcall
    · cases hcall
    · cases hcall
  refine ⟨q.finished, q.ended hl, fun p hp => ?_⟩
  exact (q.left p hp).resolve_right fun hrun => hl hrun.1

end

/-- The pool is dropped while job 0 is queued and its worker has not started. -/
theorem drop_drains_queued : ∃ s t, machine.Run Machine.free (init soleWorker) s ∧ Droppable s ∧
    s.shared.globalQueue = [0] ∧ orphan.Run Machine.free (drop s) t ∧ machine.AtRest Asleep t ∧
      AllFinished t.shared.history ∧ Terminated t.shared := by
  have hexec : ((machine.exec Machine.free (init soleWorker) (call (Op.submit 0) :: turns 1 11 Outcome.ok)).bind
      fun s => (orphan.exec Machine.free (drop s) (turns 2 2 Outcome.ok ++ turns 0 24 Outcome.ok)).map fun t =>
        (s.shared.state.lifecycle, s.shared.globalQueue, s.actors, t.actors)) =
      some (.running, [0], [.worker .start, .submit 0 (.returned none)],
        [.worker .exited, .submit 0 (.returned none), .shutdown .returned]) := by
    decide
  obtain ⟨s, hs, hexec⟩ := Option.bind_eq_some_iff.mp hexec
  obtain ⟨t, ht, hexec⟩ := Option.map_eq_some_iff.mp hexec
  simp only [Prod.mk.injEq] at hexec
  obtain ⟨hl, hq, hps, hpt⟩ := hexec
  have hd : Droppable s := by
    refine ⟨hl, fun p hm => ?_⟩
    simp only [hps, List.mem_cons, List.not_mem_nil, or_false] at hm
    rcases hm with rfl | rfl
    · exact Or.inl rfl
    · exact Or.inr rfl
  have hrest : machine.AtRest Asleep t := by
    intro p hm
    simp only [hpt, List.mem_cons, List.not_mem_nil, or_false] at hm
    rcases hm with rfl | rfl | rfl
    all_goals exact Or.inr fun c => rfl
  have hrun := machine.exec_run hs
  have hrun' := orphan.exec_run ht
  obtain ⟨hfin, hend, -⟩ := drop_drains hrun hd hrun' hrest
  exact ⟨s, t, hrun, hd, hq, hrun', hrest, hfin, hend⟩

end ThreadPools.Fixed
