import ThreadPools.Fixed.Gauges
import ThreadPools.Wakeup.Invariant

/-! # The fixed pool follows the wake-up protocol with a fixed crew -/
namespace ThreadPools.Fixed
open Interleaving
open Wakeup (Role Place Mode Board Rules)

def mode : ExecutorServiceLifecycle → Mode
  | .running => .admitting
  | .shuttingDown => .draining
  | .stopping | .terminated => .halted

def board (sh : Shared) : Board JobId where
  mode := mode sh.state.lifecycle
  closed := sh.acct.admission.closed
  items := sh.globalQueue
  tokens := sh.pendingWorkerWakes
  epoch := sh.epoch

def SubmitPc.role (j : JobId) : SubmitPc → Role JobId
  | .enter | .departGate _ | .departWaiters _ | .departNotify _ | .returned _ => .plain .outside false
  | .reserve | .rollbackNotify | .discard _ | .leave _ => .plain .inside false
  | .callAccept | .accepting | .rollback | .publishSubmitted | .publishQueued | .push =>
    .plain .reserved false
  | .loadIdle => .pushed j
  | .raiseToken idleWorkers => .loaded j idleWorkers
  | .broadcast => .raised j

def WorkerPc.role : WorkerPc → Role JobId
  | .dispatch | .waitQueued | .mark | .unlock | .drainQueued | .drainMark => .plain .fresh true
  | .readQueued | .unmark _ | .drainReadQueued => .marked
  | .readPending => .seen
  | .park => .clear
  | .parked epoch | .drainParked epoch => .parked epoch
  | .consume _ => .consuming
  | .drainInflight => .exitSeen
  | .drainReadInflight => .drainSeen
  | .drainPark => .drainClear
  | .stopHook | .exit => .plain .leaving false
  | .exited => .plain .outside false
  | _ => .plain .fresh false

def Pc.role : Pc → Role JobId
  | .submit j p => p.role j
  | .worker p => p.role
  | .cancel _ (.worker _) | .idle _ .finishedRunning => .plain .fresh false
  | p => .plain .outside p.locks

def rules (size : ℕ) (exitGuard parkGuard : Prop) : Rules := ⟨True, size, exitGuard, parkGuard⟩

theorem Pc.role_weights (p : Pc) :
    p.role.holds = Gauge.monitor.weight p ∧ p.role.inside = Gauge.inflight.weight p ∧
      p.role.works = Gauge.liveWorkers.weight p ∧ p.role.marks = Gauge.idleWorkerCount.weight p := by
  cases p with
  | submit j p => cases p <;> exact ⟨rfl, rfl, rfl, rfl⟩
  | worker p => cases p <;> exact ⟨rfl, rfl, rfl, rfl⟩
  | cancel p k => cases k <;> exact ⟨rfl, rfl, rfl, rfl⟩
  | idle r k => cases k <;> exact ⟨rfl, rfl, rfl, rfl⟩
  | _ => exact ⟨rfl, rfl, rfl, rfl⟩

variable {sh sh' : Shared} {p p' : Pc} {rest : Multiset Pc} {c : Outcome} {j : JobId} {B : Book}

namespace Gauged

theorem holds_rest (law : Gauged sh (p ::ₘ rest)) (hf : ¬ sh.locked = true) :
    total Role.holds (rest.map Pc.role) = 0 := by
  have h := law .monitor
  rw [total_map, total_congr fun q _ => q.role_weights.1]
  simp only [Gauge.value, Bool.eq_false_iff.mpr hf, Bool.toNat_false, total_cons] at h
  omega

theorem inside_rest (law : Gauged sh (p ::ₘ rest)) (hz : sh.acct.inflightCount = 0) :
    total Role.inside (rest.map Pc.role) = 0 := by
  have h := law .inflight
  rw [total_map, total_congr fun q _ => q.role_weights.2.1]
  simp only [Gauge.value, hz, total_cons] at h
  omega

theorem marks_rest (law : Gauged sh (p ::ₘ rest)) (hp : p.marked = false) :
    total Role.marks (rest.map Pc.role) = sh.idleWorkerCount := by
  have h := law .idleWorkerCount
  rw [total_map, total_congr fun q _ => q.role_weights.2.2.2]
  simp only [Gauge.value, Gauge.weight, hp, Bool.toNat_false, total_cons] at h
  omega

end Gauged

theorem board_sub {a : PoolAccounting} {d : Counter} (h : sh.acct.sub d = some a) :
    board (sh.setAcct a) = board sh := by
  simp [board, Shared.setAcct, PoolAccounting.sub_admission h]

theorem board_leave {a : PoolAccounting} {last : Bool} (h : sh.acct.leave = some (a, last)) :
    board (sh.setAcct a) = board sh := by
  obtain ⟨g, hg, ha⟩ := Option.map_eq_some_iff.mp h
  unfold AdmissionGate.leave at hg
  split at hg
  · cases hg
    cases ha
    rfl
  · cases hg

section
variable {U : Rules} {R : Multiset (Role JobId)} {r r' : Role JobId}

theorem stutter (hb : board sh' = board sh) (hr : r' = r) : Wakeup.Step U (board sh) R r (board sh') r' [] := by
  rw [hb, hr]
  exact .still (le_refl _)

end

variable {size : ℕ} {exitGuard parkGuard : Prop}

/-- Between the `stop_now` check and the end of the job that was stolen. -/
def WorkerPc.taking : WorkerPc → Bool
  | .start | .takeStop | .steal | .acceptStop _ | .claimQueued _ | .claimRunning _ | .claimSlot _ => true
  | .withdraw _ | .cancelling _ | .callRun _ | .running _ | .finishCompleted _ | .finishRunning _
  | .finishNotify => true
  | _ => false

/-- The probes and the `Running` branch, up to the next round of the loop. -/
def WorkerPc.waiting : WorkerPc → Bool
  | .lockState | .dispatch | .waitQueued | .spinQueued _ | .spinPending _ | .spinGate _ | .relock | .mark => true
  | .readQueued | .readPending | .park | .parked _ | .unmark _ | .consume _ | .unlock => true
  | _ => false

def WorkerPc.draining : WorkerPc → Bool
  | .drainQueued | .drainInflight | .drainMark | .drainReadQueued | .drainReadInflight | .drainPark => true
  | _ => false

section
variable {p : WorkerPc}

theorem taking_simulated (hp : p.taking = true) (h : workerStep sh p = some (sh', p')) (hn : ∀ e, p' ≠ .panicked e) :
    Wakeup.Step (rules size exitGuard parkGuard) (board sh) (rest.map Pc.role) (Pc.worker p).role
      (board sh') p'.role [] := by
  cases p with
  | steal =>
    simp only [workerStep] at h
    split at h
    · cases h
      exact stutter rfl rfl
    · rename_i i q hq
      cases h
      refine .take fun k hk => ?_
      change k ∈ sh.globalQueue
      rw [hq]
      exact List.mem_cons_of_mem i hk
  | finishRunning i =>
    simp only [workerStep, Shared.lower] at h
    split at h
    · rename_i a ha
      have hb : board (sh.setAcct a) = board sh := board_sub ha
      cases h
      exact stutter hb rfl
    · cases h
      exact absurd rfl (hn _)
  | start | takeStop | acceptStop | claimQueued | claimRunning | claimSlot | withdraw | cancelling | callRun | running
  | finishCompleted | finishNotify =>
    simp only [workerStep, Shared.withLock, Shared.lower] at h
    repeat' split at h
    all_goals cases h
    all_goals first
      | exact absurd rfl (hn _)
      | exact stutter rfl rfl
      | exact stutter (board_sub ‹_›) rfl
      | exact .still (Nat.le_succ _)
  | _ => cases hp

theorem waiting_simulated (hp : p.waiting = true) (law : Gauged sh (.worker p ::ₘ rest))
    (rec : Recorded sh ((Pc.worker p).onto B)) (h : workerStep sh p = some (sh', p')) (hn : ∀ e, p' ≠ .panicked e) :
    Wakeup.Step (rules size exitGuard parkGuard) (board sh) (rest.map Pc.role) (Pc.worker p).role
      (board sh') p'.role [] := by
  have hfree := law.holds_rest
  cases p with
  | dispatch =>
    cases hl : sh.state.lifecycle <;> simp only [workerStep, hl] at h <;> cases h
    · exact stutter rfl rfl
    · exact stutter rfl rfl
    · exact .halt (by simp [board, hl, mode]) (by rintro ⟨⟩) fun _ => trivial
    · exact .halt (by simp [board, hl, mode]) (by rintro ⟨⟩) fun _ => trivial
  | waitQueued =>
    simp only [workerStep] at h
    split at h
    · cases h
      exact stutter rfl rfl
    · split at h <;> cases h
      all_goals exact .release (le_refl _) (by rintro ⟨⟩)
  | relock =>
    obtain ⟨s, hs, h⟩ := Option.map_eq_some_iff.mp h
    obtain ⟨hf, rfl⟩ := sh.lock_eq_some hs
    split at h <;> cases h
    all_goals exact .acquire (hfree (by simp [hf]))
  | readQueued =>
    simp only [workerStep] at h
    split at h <;> cases h
    · exact stutter rfl rfl
    · exact .look (rec.queue_nil (Nat.eq_zero_of_not_pos ‹_›))
  | readPending =>
    simp only [workerStep] at h
    split at h <;> cases h
    · exact .back
    · exact .lookTokens (Nat.eq_zero_of_not_pos ‹_›)
  | unmark again =>
    simp only [workerStep] at h
    split at h
    · cases h
      exact .unmark
    · cases h
      exact absurd rfl (hn _)
  | consume again =>
    cases again <;> cases h
    all_goals exact .consume
  | lockState | spinQueued | spinPending | spinGate | mark | park | parked | unlock =>
    simp only [workerStep, Shared.lock] at h
    repeat' split at h
    all_goals cases h
    all_goals first
      | exact stutter rfl rfl
      | exact .acquire (hfree ‹_›)
      | exact .release (le_refl _) (by rintro ⟨⟩)
      | exact .mark
      | exact .park
      | exact .wake (hfree ‹_›)
  | _ => cases hp

theorem draining_simulated (hp : p.draining = true) (law : Gauged sh (.worker p ::ₘ rest))
    (rec : Recorded sh ((Pc.worker p).onto B)) (hl : sh.state.lifecycle = .shuttingDown)
    (hexit : exitGuard → p = .drainInflight → sh.acct.inflightCount = 0 → sh.globalQueue = [])
    (hpark : parkGuard → p = .drainPark →
      sh.pendingWorkerWakes = 0 ∨ 0 < total Role.raises (rest.map Pc.role))
    (h : workerStep sh p = some (sh', p')) :
    Wakeup.Step (rules size exitGuard parkGuard) (board sh) (rest.map Pc.role) (Pc.worker p).role
      (board sh') p'.role [] := by
  cases p with
  | drainQueued =>
    simp only [workerStep] at h
    split at h <;> cases h
    · exact stutter rfl rfl
    · exact .exitLook (rec.queue_nil (Nat.eq_zero_of_not_pos ‹_›)) (by simp [board, hl, mode])
  | drainInflight =>
    simp only [workerStep] at h
    split at h <;> cases h
    · rename_i hz
      exact .exit (law.inside_rest hz) (fun _ => trivial) fun hg _ => hexit hg rfl hz
    · exact .exitBusy
  | drainMark =>
    cases h
    exact .mark
  | drainReadQueued =>
    simp only [workerStep] at h
    split at h <;> cases h
    · exact .drainLook (rec.queue_nil ‹_›) (by simp [board, hl, mode])
    · exact stutter rfl rfl
  | drainReadInflight =>
    simp only [workerStep] at h
    split at h <;> cases h
    · exact .drainBusy
    · exact .drainBack
  | drainPark =>
    cases h
    exact .drainPark fun hg => hpark hg rfl
  | _ => cases hp

end

theorem workerStep_simulated {p : WorkerPc} (law : Gauged sh (.worker p ::ₘ rest))
    (rec : Recorded sh ((Pc.worker p).onto B))
    (hdrain : p.draining = true → sh.state.lifecycle = .shuttingDown)
    (hexit : exitGuard → p = .drainInflight → sh.acct.inflightCount = 0 → sh.globalQueue = [])
    (hpark : parkGuard → p = .drainPark →
      sh.pendingWorkerWakes = 0 ∨ 0 < total Role.raises (rest.map Pc.role))
    (h : workerStep sh p = some (sh', p')) (hn : ∀ e, p' ≠ .panicked e) :
    Wakeup.Step (rules size exitGuard parkGuard) (board sh) (rest.map Pc.role) (Pc.worker p).role
      (board sh') p'.role [] := by
  cases p with
  | lockState | dispatch | waitQueued | spinQueued | spinPending | spinGate | relock | mark | readQueued | readPending
  | park | parked | unmark | consume | unlock => exact waiting_simulated rfl law rec h hn
  | drainQueued | drainInflight | drainMark | drainReadQueued | drainReadInflight | drainPark =>
    exact draining_simulated rfl law rec (hdrain rfl) hexit hpark h
  | drainParked epoch =>
    obtain ⟨s, hs, h⟩ := Option.map_eq_some_iff.mp h
    obtain ⟨hf, rfl⟩ := sh.lock_eq_some hs
    cases h
    exact .wake (law.holds_rest (by simp [hf]))
  | stopHook =>
    cases h
    exact stutter rfl rfl
  | exit =>
    simp only [workerStep] at h
    split at h
    · cases h
    · split at h
      · cases h
        exact .unregister (Nat.le_succ _) fun _ => law.holds_rest ‹_›
      · cases h
        exact absurd rfl (hn _)
  | exited => cases h
  | _ => exact taking_simulated rfl h hn

theorem submitStep_simulated {p : SubmitPc} (law : Gauged sh (.submit j p ::ₘ rest))
    (h : submitStep sh j c p = some (sh', p')) (hn : ∀ e, p' ≠ .panicked e) :
    Wakeup.Step (rules size exitGuard parkGuard) (board sh) (rest.map Pc.role) (Pc.submit j p).role
      (board sh') p'.role [] := by
  have hfree := law.holds_rest
  cases p with
  | enter =>
    simp only [submitStep] at h
    split at h
    · rename_i a ha
      obtain ⟨g, hg, rfl⟩ := Option.map_eq_some_iff.mp ha
      unfold AdmissionGate.tryEnter at hg
      split at hg
      · cases hg
      · rename_i hopen
        cases hg
        cases h
        exact .enter (by simpa [board] using hopen)
    · cases h
      exact stutter rfl rfl
  | reserve =>
    simp only [submitStep] at h
    split at h
    · rename_i ha
      obtain rfl := PoolAccounting.tryReserveBoundedSlot_eq ha
      cases h
      exact .reserveFree trivial
    · cases h
      exact stutter rfl rfl
  | accepting =>
    cases c <;> cases h
    all_goals exact stutter rfl rfl
  | rollback =>
    simp only [submitStep, Shared.lower] at h
    split at h
    · rename_i a ha
      have hb : board (sh.setAcct a) = board sh := board_sub ha
      cases h
      rw [hb]
      exact .rollback
    · cases h
      exact absurd rfl (hn _)
  | push =>
    cases h
    exact .push
  | loadIdle =>
    have hm := law.marks_rest rfl
    simp only [submitStep] at h
    split at h <;> cases h
    · exact .loadNone (by omega)
    · exact .load hm (Nat.pos_of_ne_zero ‹_›)
  | raiseToken k =>
    simp only [submitStep] at h
    split at h <;> cases h
    · exact .raise ‹_›
    · exact .covered (Nat.le_of_not_lt ‹_›)
  | broadcast =>
    simp only [submitStep, Shared.withLock] at h
    split at h <;> cases h
    exact .broadcast (hfree ‹_›)
  | leave result =>
    simp only [submitStep] at h
    split at h
    · rename_i a last ha
      have hb : board (sh.setAcct a) = board sh := board_leave ha
      cases last <;> cases h
      all_goals
        rw [hb]
        exact .leave
    · cases h
      exact absurd rfl (hn _)
  | _ =>
    simp only [submitStep, Shared.withLock] at h
    repeat' split at h
    all_goals cases h
    all_goals first
      | exact stutter rfl rfl
      | exact .still (Nat.le_succ _)

def Pc.closing : Pc → Bool
  | .shutdown .lockState | .stop (.storeStop _) | .stop (.lockState _) => true
  | _ => false

theorem shutdownStep_simulated {p : ShutdownPc} (law : Gauged sh (.shutdown p ::ₘ rest))
    (hclosed : (Pc.shutdown p).closing = true → sh.acct.admission.closed = true)
    (h : shutdownStep sh p = some (sh', p')) :
    Wakeup.Step (rules size exitGuard parkGuard) (board sh) (rest.map Pc.role) (Pc.shutdown p).role
      (board sh') p'.role [] := by
  cases p with
  | close =>
    cases h
    exact .close
  | lockState =>
    obtain ⟨s, hs, h⟩ := Option.map_eq_some_iff.mp h
    obtain ⟨hf, rfl⟩ := sh.withLock_eq_some hs
    have hz := law.holds_rest (by simp [hf])
    cases h
    split
    · rename_i hrun
      have hrank : (board sh).mode.rank ≤ Mode.draining.rank := by simp [board, hrun, mode, Mode.rank]
      exact .setMode (Nat.le_succ _) hz (hclosed rfl) hrank
    · exact .still (Nat.le_succ _)
  | returned => cases h

theorem stopStep_simulated {p : StopPc} (law : Gauged sh (.stop p ::ₘ rest))
    (hclosed : (Pc.stop p).closing = true → sh.acct.admission.closed = true)
    (h : stopStep sh p = some (sh', p')) (hn : ∀ e, p' ≠ .panicked e) :
    Wakeup.Step (rules size exitGuard parkGuard) (board sh) (rest.map Pc.role) (Pc.stop p).role
      (board sh') p'.role [] := by
  have hfree := law.holds_rest
  cases p with
  | close info =>
    cases h
    exact .close
  | lockState info =>
    obtain ⟨s, hs, h⟩ := Option.map_eq_some_iff.mp h
    obtain ⟨hf, rfl⟩ := sh.lock_eq_some hs
    have hz := hfree (by simp [hf])
    cases hl : sh.state.lifecycle <;> simp only [hl] at h <;> cases h
    · have hrank : (board sh).mode.rank ≤ Mode.halted.rank := by simp [board, hl, mode, Mode.rank]
      exact .setMode (le_refl _) hz (hclosed rfl) hrank
    · have hrank : (board sh).mode.rank ≤ Mode.halted.rank := by simp [board, hl, mode, Mode.rank]
      exact .setMode (le_refl _) hz (hclosed rfl) hrank
    · exact .acquire hz
    · exact .acquire hz
  | drain info jobs =>
    simp only [stopStep] at h
    split at h
    · cases h
      exact stutter rfl rfl
    · rename_i i q hq
      cases h
      refine .take fun k hk => ?_
      change k ∈ sh.globalQueue
      rw [hq]
      exact List.mem_cons_of_mem i hk
  | begin info begun jobs =>
    cases jobs with
    | nil =>
      cases h
      exact stutter rfl rfl
    | cons i q =>
      simp only [stopStep, Shared.lower] at h
      split at h <;> cases h
      · exact stutter (board_sub ‹_›) rfl
      · exact absurd rfl (hn _)
  | next jobs report =>
    cases jobs <;> cases h
    all_goals exact stutter rfl rfl
  | _ =>
    simp only [stopStep, Shared.lock, Shared.withLock] at h
    repeat' split at h
    all_goals cases h
    all_goals first
      | exact absurd rfl (hn _)
      | exact stutter rfl rfl
      | exact .acquire (hfree ‹_›)
      | exact .release (le_refl _) (by rintro ⟨⟩)
      | exact .release (Nat.le_succ _) (by rintro ⟨⟩)
      | exact .still (Nat.le_succ _)

theorem cancelStep_simulated {p : CancelPc} {k : CancelCaller} (h : cancelStep sh k p = some (sh', p'))
    (hn : ∀ e, p' ≠ .panicked e) :
    Wakeup.Step (rules size exitGuard parkGuard) (board sh) (rest.map Pc.role) (Pc.cancel p k).role
      (board sh') p'.role [] := by
  cases p with
  | subSlot =>
    simp only [cancelStep, Shared.lower] at h
    split at h
    · rename_i a ha
      have hb : board (sh.setAcct a) = board sh := board_sub ha
      cases h
      cases k <;> exact stutter hb rfl
    · cases h
      exact absurd rfl (hn _)
  | done =>
    cases k <;> cases h
    all_goals exact stutter rfl rfl
  | _ =>
    simp only [cancelStep, Shared.withLock, Shared.lower] at h
    repeat' split at h
    all_goals cases h
    all_goals first
      | exact absurd rfl (hn _)
      | cases k <;> exact stutter rfl rfl
      | cases k <;> exact stutter (board_sub ‹_›) rfl
      | cases k <;> exact .still (Nat.le_succ _)

theorem joinStep_simulated {p : JoinPc} (law : Gauged sh (.join p ::ₘ rest))
    (h : joinStep sh p = some (sh', p')) (hn : ∀ e, p' ≠ .panicked e) :
    Wakeup.Step (rules size exitGuard parkGuard) (board sh) (rest.map Pc.role) (Pc.join p).role
      (board sh') p'.role [] := by
  have hfree := law.holds_rest
  cases p
  all_goals simp only [joinStep, Shared.lock] at h
  all_goals repeat' split at h
  all_goals cases h
  all_goals first
    | exact absurd rfl (hn _)
    | exact stutter rfl rfl
    | exact .acquire (hfree ‹_›)
    | exact .release (le_refl _) (by rintro ⟨⟩)

theorem observeStep_simulated {p : ObservePc} (law : Gauged sh (.observe p ::ₘ rest))
    (h : observeStep sh c p = some (sh', p')) :
    Wakeup.Step (rules size exitGuard parkGuard) (board sh) (rest.map Pc.role) (Pc.observe p).role
      (board sh') p'.role [] := by
  have hfree := law.holds_rest
  cases p with
  | term o =>
    simp only [observeStep] at h
    split at h <;> cases h
    · exact stutter rfl rfl
    · cases o <;> exact stutter rfl rfl
  | _ =>
    simp only [observeStep, Shared.lock] at h
    repeat' split at h
    all_goals cases h
    all_goals first
      | exact stutter rfl rfl
      | exact .acquire (hfree ‹_›)
      | exact .release (le_refl _) (by rintro ⟨⟩)

theorem idleStep_role (sh : Shared) (r : IdleRead) (k : IdleCaller) :
    (idleStep sh r k).role = (Pc.idle r k).role := by
  unfold idleStep
  repeat' split
  all_goals
    cases k with
    | term o => cases o <;> rfl
    | _ => rfl

end ThreadPools.Fixed
