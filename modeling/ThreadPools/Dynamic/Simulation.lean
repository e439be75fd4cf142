import ThreadPools.Dynamic.BookSteps
import ThreadPools.Dynamic.Roles

/-! # The dynamic pool follows the wake-up protocol -/
namespace ThreadPools.Dynamic
open Interleaving
open Wakeup (Role Place Mode Board Rules)

variable {sh sh' : Shared} {p p' : Pc} {rest : Multiset Pc} {c : Outcome} {j : JobId} {B : Book}

namespace Gauged

theorem total_eq (law : Gauged sh (p ::ₘ rest)) {g : Gauge} (hg : g ≠ .liveWorkerCount) :
    g.value sh = g.weight p + total g.weight rest := by
  have h := law g
  have ho : total g.owed (p ::ₘ rest) = 0 := by
    refine total_eq_zero_iff.mpr fun q _ => ?_
    unfold Gauge.owed
    split
    · exact absurd rfl hg
    · rfl
  rw [ho, total_cons] at h
  exact h

theorem holds_rest (law : Gauged sh (p ::ₘ rest)) (hf : ¬ sh.locked = true) :
    total Role.holds (rest.map Pc.role) = 0 := by
  have h := law.total_eq (g := .monitor) nofun
  rw [total_map, total_congr fun q _ => q.role_weights.1]
  simp only [Gauge.value, Bool.eq_false_iff.mpr hf, Bool.toNat_false] at h
  omega

theorem inside_rest (law : Gauged sh (p ::ₘ rest)) (hz : sh.acct.inflightCount = 0) :
    total Role.inside (rest.map Pc.role) = 0 := by
  have h := law.total_eq (g := .inflight) nofun
  rw [total_map, total_congr fun q _ => q.role_weights.2.1]
  simp only [Gauge.value, hz] at h
  omega

theorem works_rest (law : Gauged sh (p ::ₘ rest)) :
    total Role.works (rest.map Pc.role) + Gauge.liveWorkers.weight p = sh.state.liveWorkers := by
  have h := law.total_eq (g := .liveWorkers) nofun
  rw [total_map, total_congr fun q _ => q.role_weights.2.2.1]
  simp only [Gauge.value] at h
  omega

theorem marks_rest (law : Gauged sh (p ::ₘ rest)) (hp : p.home.marked = false) :
    total Role.marks (rest.map Pc.role) = sh.idleWorkerCount := by
  have h := law.total_eq (g := .idleWorkerCount) nofun
  rw [total_map, total_congr fun q _ => q.role_weights.2.2.2]
  simp only [Gauge.value, Gauge.weight, hp, Bool.toNat_false] at h
  omega

end Gauged

/-- A queued count of zero leaves nothing in the FIFO. -/
theorem Recorded.queue_nil {held : Book} (r : Recorded sh held) (hz : sh.acct.queuedCount = 0) :
    sh.globalQueue = [] := by
  have hc := r.law.counts .queued
  rw [show sh.acct.count .queued = 0 from hz] at hc
  refine List.eq_nil_iff_forall_not_mem.mpr fun i hi => ?_
  have hm : (i, Phase.queued) ∈ stored sh + held := Multiset.mem_add.mpr (Or.inl (Book.mem_stored hi))
  have := total_eq_zero_iff.mp hc.symm _ hm
  simp [Phase.weight] at this

theorem board_sub {a : PoolAccounting} {d : Counter} (h : sh.acct.sub d = some a) :
    board (sh.setAcct a) = board sh := by
  simp [board, Shared.setAcct, PoolAccounting.sub_admission h]

theorem board_leave {a : PoolAccounting} {last : Bool} (h : sh.acct.leave = some (a, last)) :
    board (sh.setAcct a) = board sh := by
  obtain ⟨g, hg, ha⟩ := Option.map_eq_some_iff.mp h
  unfold AdmissionGate.leave at hg
  split at hg
  · cases hg
    cases ha
    rfl
  · cases hg

section
variable {U : Rules} {R : Multiset (Role JobId)} {r r' : Role JobId}

/-- A step that the protocol does not see. -/
theorem stutter (hb : board sh' = board sh) (hr : r' = r) : Wakeup.Step U (board sh) R r (board sh') r' [] := by
  rw [hb, hr]
  exact .still (le_refl _)

end

variable {exitGuard parkGuard : Prop}

/-- Between the lock of the queue and the end of the job that was taken from it. -/
def WorkerPc.taking : WorkerPc → Bool
  | .start | .takeLock | .takeStop | .takePop | .takeNone => true
  | .claimQueued _ | .claimRunning _ | .claimSlot _ | .claimNotify _ | .claimUnlock _ => true
  | .callRun _ | .running _ | .finishCompleted _ | .finishRunning _ | .finishNotify => true
  | _ => false

/-- The `Running` branch until the worker has waited. -/
def WorkerPc.waiting : WorkerPc → Bool
  | .lockState | .overMaximum | .relock | .mark _ | .readQueued _ | .readPending _ | .park _ | .parked _ _ => true
  | _ => false

def WorkerPc.awake : WorkerPc → Bool
  | .retireQueued | .retirePending | .retireInflight | .unmark _ | .consume _ | .unlock => true
  | _ => false

def WorkerPc.draining : WorkerPc → Bool
  | .drainQueued | .drainInflight | .drainMark | .drainReadQueued | .drainReadInflight | .drainPark => true
  | _ => false

def WorkerPc.leaving : WorkerPc → Bool
  | .unregister | .unregisterCount | .unregisterNotify | .unregisterUnlock | .stopHook => true
  | .exitLock | .exitTerminated | .exitNotify | .exited => true
  | _ => false

section
variable {p : WorkerPc}

theorem taking_simulated (hp : p.taking = true) (h : workerStep sh c p = some (sh', p'))
    (hn : ∀ e, p' ≠ .panicked e) :
    Wakeup.Step (rules exitGuard parkGuard) (board sh) (rest.map Pc.role) (Pc.worker p).role
      (board sh') p'.role [] := by
  cases p with
  | takePop =>
    simp only [workerStep] at h
    split at h
    · cases h
      exact stutter rfl rfl
    · rename_i i q hq
      have hsub : ∀ k ∈ q, k ∈ (board sh).items := by
        intro k hk
        change k ∈ sh.globalQueue
        rw [hq]
        exact List.mem_cons_of_mem i hk
      split at h
      · rename_i hs
        obtain rfl := takeQueued_eq_some hs
        cases h
        exact .take hsub
      · cases h
        exact .take hsub
  | finishRunning i =>
    simp only [workerStep, Shared.lower] at h
    split at h
    · rename_i a ha
      have hb : board (sh.setAcct a) = board sh := board_sub ha
      cases h
      exact stutter hb rfl
    · cases h
      exact absurd rfl (hn _)
  | start | takeLock | takeStop | takeNone | claimQueued | claimRunning | claimSlot | claimNotify | claimUnlock
  | callRun | running | finishCompleted | finishNotify =>
    simp only [workerStep, Shared.lockQueue, Shared.lower] at h
    repeat' split at h
    all_goals first | (simp only [Option.map_some] at h; cases h) | cases h
    all_goals first
      | exact absurd rfl (hn _)
      | exact stutter rfl rfl
      | exact stutter (board_sub ‹_›) rfl
  | _ => cases hp

theorem waiting_simulated (hp : p.waiting = true) (law : Gauged sh (.worker p ::ₘ rest))
    (rec : Recorded sh ((Pc.worker p).onto B)) (hmax : 0 < sh.state.maximumPoolSize)
    (h : workerStep sh c p = some (sh', p')) :
    Wakeup.Step (rules exitGuard parkGuard) (board sh) (rest.map Pc.role) (Pc.worker p).role
      (board sh') p'.role [] := by
  have hfree := law.holds_rest
  have hwork := law.works_rest
  cases p with
  | lockState =>
    obtain ⟨s, hs, h⟩ := Option.map_eq_some_iff.mp h
    obtain ⟨hf, rfl⟩ := sh.lock_eq_some hs
    have hz := hfree (by simp [hf])
    cases hl : sh.state.lifecycle <;> simp only [hl] at h <;> cases h
    · exact .acquire hz
    · exact .acquire hz
    · exact .halt (by simp [board, hl, mode]) (fun _ => hz) (by rintro ⟨⟩)
    · exact .halt (by simp [board, hl, mode]) (fun _ => hz) (by rintro ⟨⟩)
  | overMaximum =>
    simp only [workerStep] at h
    split at h
    · rename_i hc
      cases h
      refine .spare (rec.queue_nil hc.1) ?_ (by rintro ⟨⟩)
      have : Gauge.liveWorkers.weight (.worker .overMaximum) = 1 := rfl
      omega
    · cases h
      exact .release (le_refl _) (by rintro ⟨⟩)
  | relock =>
    obtain ⟨s, hs, h⟩ := Option.map_eq_some_iff.mp h
    obtain ⟨hf, rfl⟩ := sh.lock_eq_some hs
    split at h <;> cases h
    · exact .acquire (hfree (by simp [hf]))
    · exact stutter rfl rfl
  | mark timed =>
    cases h
    exact .mark
  | readQueued timed =>
    simp only [workerStep] at h
    split at h <;> cases h
    · exact .look (rec.queue_nil ‹_›)
    · exact stutter rfl rfl
  | readPending timed =>
    simp only [workerStep] at h
    split at h <;> cases h
    · exact .back
    · exact .lookTokens (Nat.eq_zero_of_not_pos ‹_›)
  | park timed =>
    cases h
    exact .park
  | parked timed epoch =>
    simp only [workerStep, Shared.lock] at h
    repeat' split at h
    all_goals cases h
    all_goals exact .wake (hfree ‹_›)
  | _ => cases hp

theorem awake_simulated (hp : p.awake = true) (law : Gauged sh (.worker p ::ₘ rest))
    (rec : Recorded sh ((Pc.worker p).onto B)) (h : workerStep sh c p = some (sh', p'))
    (hn : ∀ e, p' ≠ .panicked e) :
    Wakeup.Step (rules exitGuard parkGuard) (board sh) (rest.map Pc.role) (Pc.worker p).role
      (board sh') p'.role [] := by
  have hwork := law.works_rest
  cases p with
  | retireQueued =>
    simp only [workerStep] at h
    split at h <;> cases h
    · exact .retireLook (rec.queue_nil ‹_›)
    · exact stutter rfl rfl
  | retirePending =>
    simp only [workerStep] at h
    split at h
    · cases h
      exact .retireBack
    · rename_i ht
      have hzero : (board sh).tokens = 0 := Nat.eq_zero_of_not_pos ht
      split at h
      · cases h
        cases sh.state.idleWorkerCanRetire with
        | false => exact .retireBack
        | true =>
          refine .retireCrowd hzero ?_ (by rintro ⟨⟩)
          have : Gauge.liveWorkers.weight (.worker .retirePending) = 1 := rfl
          omega
      · cases h
        exact .retireTokens hzero
  | retireInflight =>
    simp only [workerStep] at h
    split at h
    · cases h
      cases sh.state.idleWorkerCanRetire with
      | false => exact .retireStay
      | true => exact .retireAlone (law.inside_rest ‹_›) (by rintro ⟨⟩)
    · cases h
      exact .retireStay
  | unmark retire =>
    simp only [workerStep] at h
    split at h
    · cases h
      cases retire with
      | false => exact .unmark
      | true => exact .unmarkRetire
    · cases h
      exact absurd rfl (hn _)
  | consume retire =>
    cases h
    cases retire with
    | false => exact .consume
    | true => exact .consumeRetire
  | unlock =>
    cases h
    exact .release (le_refl _) (by rintro ⟨⟩)
  | _ => cases hp

theorem draining_simulated (hp : p.draining = true) (law : Gauged sh (.worker p ::ₘ rest))
    (rec : Recorded sh ((Pc.worker p).onto B)) (hl : sh.state.lifecycle = .shuttingDown)
    (hexit : exitGuard → p = .drainInflight → sh.acct.inflightCount = 0 →
      total Role.stays (rest.map Pc.role) = 0 → sh.globalQueue = [])
    (hpark : parkGuard → p = .drainPark →
      sh.pendingWorkerWakes = 0 ∨ 0 < total Role.raises (rest.map Pc.role))
    (h : workerStep sh c p = some (sh', p')) :
    Wakeup.Step (rules exitGuard parkGuard) (board sh) (rest.map Pc.role) (Pc.worker p).role
      (board sh') p'.role [] := by
  cases p with
  | drainQueued =>
    simp only [workerStep] at h
    split at h <;> cases h
    · exact .exitLook (rec.queue_nil ‹_›) (by simp [board, hl, mode])
    · exact stutter rfl rfl
  | drainInflight =>
    simp only [workerStep] at h
    split at h <;> cases h
    · rename_i hz
      exact .exit (law.inside_rest hz) (by rintro ⟨⟩) fun hg hs => hexit hg rfl hz hs
    · exact .exitBusy
  | drainMark =>
    cases h
    exact .mark
  | drainReadQueued =>
    simp only [workerStep] at h
    split at h <;> cases h
    · exact .drainLook (rec.queue_nil ‹_›) (by simp [board, hl, mode])
    · exact stutter rfl rfl
  | drainReadInflight =>
    simp only [workerStep] at h
    split at h <;> cases h
    · exact .drainBusy
    · exact .drainBack
  | drainPark =>
    cases h
    exact .drainPark fun hg => hpark hg rfl
  | _ => cases hp

theorem leaving_simulated (hp : p.leaving = true) (law : Gauged sh (.worker p ::ₘ rest))
    (h : workerStep sh c p = some (sh', p')) (hn : ∀ e, p' ≠ .panicked e) :
    Wakeup.Step (rules exitGuard parkGuard) (board sh) (rest.map Pc.role) (Pc.worker p).role
      (board sh') p'.role [] := by
  have hfree := law.holds_rest
  cases p with
  | unregister =>
    simp only [workerStep] at h
    split at h
    · cases h
      exact .unregister (le_refl _) (by rintro ⟨⟩)
    · cases h
      exact absurd rfl (hn _)
  | unregisterCount =>
    simp only [workerStep] at h
    split at h <;> cases h
    · exact stutter rfl rfl
    · exact absurd rfl (hn _)
  | unregisterNotify | exitTerminated =>
    cases h
    exact .still (Nat.le_succ _)
  | unregisterUnlock =>
    cases h
    exact .release (le_refl _) (by rintro ⟨⟩)
  | stopHook =>
    cases h
    exact stutter rfl rfl
  | exitLock =>
    obtain ⟨s, hs, h⟩ := Option.map_eq_some_iff.mp h
    obtain ⟨hf, rfl⟩ := sh.lock_eq_some hs
    split at h <;> cases h
    · exact .acquire (hfree (by simp [hf]))
    · exact absurd rfl (hn _)
  | exitNotify =>
    cases h
    exact .release (Nat.le_succ _) (by rintro ⟨⟩)
  | exited => cases h
  | _ => cases hp

end

theorem workerStep_simulated {p : WorkerPc} (law : Gauged sh (.worker p ::ₘ rest))
    (rec : Recorded sh ((Pc.worker p).onto B)) (hmax : 0 < sh.state.maximumPoolSize)
    (hdrain : p.draining = true → sh.state.lifecycle = .shuttingDown)
    (hexit : exitGuard → p = .drainInflight → sh.acct.inflightCount = 0 →
      total Role.stays (rest.map Pc.role) = 0 → sh.globalQueue = [])
    (hpark : parkGuard → p = .drainPark →
      sh.pendingWorkerWakes = 0 ∨ 0 < total Role.raises (rest.map Pc.role))
    (h : workerStep sh c p = some (sh', p')) (hn : ∀ e, p' ≠ .panicked e) :
    Wakeup.Step (rules exitGuard parkGuard) (board sh) (rest.map Pc.role) (Pc.worker p).role
      (board sh') p'.role [] := by
  cases p with
  | lockState | overMaximum | relock | mark | readQueued | readPending | park | parked =>
    exact waiting_simulated rfl law rec hmax h
  | retireQueued | retirePending | retireInflight | unmark | consume | unlock =>
    exact awake_simulated rfl law rec h hn
  | drainQueued | drainInflight | drainMark | drainReadQueued | drainReadInflight | drainPark =>
    exact draining_simulated rfl law rec (hdrain rfl) hexit hpark h
  | drainParked epoch =>
    obtain ⟨s, hs, h⟩ := Option.map_eq_some_iff.mp h
    obtain ⟨hf, rfl⟩ := sh.lock_eq_some hs
    cases h
    exact .wake (law.holds_rest (by simp [hf]))
  | unregister | unregisterCount | unregisterNotify | unregisterUnlock | stopHook | exitLock | exitTerminated
  | exitNotify | exited => exact leaving_simulated rfl law h hn
  | _ => exact taking_simulated rfl h hn

theorem submitStep_simulated {p : SubmitPc} (law : Gauged sh (.submit j p ::ₘ rest))
    (hgrow : p = .reserveSlot → sh.state.lifecycle = .running)
    (h : submitStep sh j c p = some (sh', p')) (hn : ∀ e, p' ≠ .panicked e) :
    Wakeup.Step (rules exitGuard parkGuard) (board sh) (rest.map Pc.role) (Pc.submit j p).role
      (board sh') p'.role [] := by
  have hfree := law.holds_rest
  cases p with
  | enter =>
    simp only [submitStep] at h
    split at h
    · rename_i a ha
      obtain ⟨g, hg, rfl⟩ := Option.map_eq_some_iff.mp ha
      unfold AdmissionGate.tryEnter at hg
      split at hg
      · cases hg
      · rename_i hopen
        cases hg
        cases h
        exact .enter (by simpa [board] using hopen)
    · cases h
      exact stutter rfl rfl
  | checkState =>
    simp only [submitStep] at h
    split at h
    · cases h
      exact stutter rfl rfl
    · rename_i hrun
      have hmode : (board sh).mode = .admitting := by simp [board, not_not.mp hrun, mode]
      split at h
      · cases h
        exact .growEntered hmode (by rintro ⟨⟩)
      · split at h
        · cases h
          exact .growEntered hmode (by rintro ⟨⟩)
        · rename_i hlive
          cases h
          refine .vouch hmode ?_
          have hw := law.works_rest
          have : Gauge.liveWorkers.weight (.submit j .checkState) = 0 := rfl
          omega
  | reserveSlot =>
    simp only [submitStep] at h
    split at h
    · rename_i ha
      obtain rfl := PoolAccounting.tryReserveBoundedSlot_eq ha
      cases h
      exact .reserve (by rintro ⟨⟩)
    · split at h
      · cases h
        exact .growVouched (by simp [board, hgrow rfl, mode]) (by rintro ⟨⟩)
      · cases h
        exact .unvouch
  | handoff =>
    cases h
    exact .reserve (by rintro ⟨⟩)
  | accepting =>
    cases c <;> cases h
    all_goals exact stutter rfl rfl
  | rollback =>
    simp only [submitStep, Shared.lower] at h
    split at h
    · rename_i a ha
      have hb : board (sh.setAcct a) = board sh := board_sub ha
      cases h
      rw [hb]
      exact .rollback
    · cases h
      exact absurd rfl (hn _)
  | decideEntry =>
    simp only [submitStep] at h
    split at h
    · cases h
      exact .rollback
    · cases h
      exact .push
  | loadIdle =>
    have hm := law.marks_rest rfl
    simp only [submitStep] at h
    split at h <;> cases h
    · exact .loadNone (by omega)
    · exact .load hm (Nat.pos_of_ne_zero ‹_›)
  | raiseToken k =>
    simp only [submitStep] at h
    split at h <;> cases h
    · exact .raise ‹_›
    · exact .covered (Nat.le_of_not_lt ‹_›)
  | broadcast =>
    simp only [submitStep, Shared.withLock] at h
    split at h <;> cases h
    exact .broadcast (hfree ‹_›)
  | leave result =>
    simp only [submitStep] at h
    split at h
    · rename_i a last ha
      have hb : board (sh.setAcct a) = board sh := board_leave ha
      cases last <;> cases h
      all_goals
        rw [hb]
        exact .leave
    · cases h
      exact absurd rfl (hn _)
  | _ =>
    simp only [submitStep, Shared.lock, Shared.lockQueue, Shared.lower] at h
    repeat' split at h
    all_goals cases h
    all_goals first
      | exact absurd rfl (hn _)
      | exact stutter rfl rfl
      | exact stutter (board_sub ‹_›) rfl
      | exact .acquire (hfree ‹_›)
      | exact .release (le_refl _) (by rintro ⟨⟩)

theorem spawnStep_simulated {p : SpawnPc} {k : SpawnCaller} (h : spawnStep sh k c p = some (sh', p'))
    (hn : ∀ e, p' ≠ .panicked e) :
    Wakeup.Step (rules exitGuard parkGuard) (board sh) (rest.map Pc.role) (Pc.spawn p k).role
      (board sh') p'.role ((spawned (.spawn p k) c).map Pc.role) := by
  cases p with
  | spawn =>
    cases c with
    | ok =>
      cases h
      cases k with
      | submit j => exact .spawn
      | prestart => exact .spawnSpare
    | err =>
      cases h
      exact stutter rfl rfl
  | liveCount =>
    cases k <;> cases h
    all_goals exact stutter rfl rfl
  | rollback =>
    simp only [spawnStep] at h
    split at h
    · cases h
      cases k with
      | submit j => exact .spawnFail
      | prestart => exact .spawnSpareFail
    · cases h
      exact absurd rfl (hn _)
  | notify =>
    cases h
    exact .still (Nat.le_succ _)
  | unlock =>
    cases k <;> cases h
    all_goals exact .release (le_refl _) (by rintro ⟨⟩)

theorem prestartStep_simulated (law : Gauged sh (.prestart ::ₘ rest)) (h : prestartStep sh = some (sh', p')) :
    Wakeup.Step (rules exitGuard parkGuard) (board sh) (rest.map Pc.role) Pc.prestart.role
      (board sh') p'.role [] := by
  obtain ⟨s, hs, h⟩ := Option.map_eq_some_iff.mp h
  obtain ⟨hf, rfl⟩ := sh.lock_eq_some hs
  split at h
  · cases h
    exact stutter rfl rfl
  · rename_i hrun
    split at h
    · cases h
      exact stutter rfl rfl
    · cases h
      refine .growSpare ?_ nofun (law.holds_rest (by simp [hf]))
      have hl : sh.state.lifecycle = .running := not_not.mp hrun
      simp [board, hl, mode]

def Pc.closing : Pc → Bool
  | .shutdown .notifyCapacity | .shutdown .lockState => true
  | .stop .notifyCapacity | .stop .storeStop | .stop .lockState => true
  | _ => false

theorem shutdownStep_simulated {p : ShutdownPc} (law : Gauged sh (.shutdown p ::ₘ rest))
    (hclosed : (Pc.shutdown p).closing = true → sh.acct.admission.closed = true)
    (h : shutdownStep sh p = some (sh', p')) :
    Wakeup.Step (rules exitGuard parkGuard) (board sh) (rest.map Pc.role) (Pc.shutdown p).role
      (board sh') p'.role [] := by
  cases p with
  | close =>
    cases h
    exact .close
  | lockState =>
    obtain ⟨s, hs, h⟩ := Option.map_eq_some_iff.mp h
    obtain ⟨hf, rfl⟩ := sh.lock_eq_some hs
    have hz := law.holds_rest (by simp [hf])
    split at h <;> cases h
    · rename_i hrun
      replace hrun : sh.state.lifecycle = .running := hrun
      have hrank : (board sh).mode.rank ≤ Mode.draining.rank := by simp [board, hrun, mode, Mode.rank]
      exact .setMode (le_refl _) hz (hclosed rfl) hrank
    · exact .acquire hz
  | notifyCapacity =>
    cases h
    exact stutter rfl rfl
  | notifyAll =>
    cases h
    exact .release (Nat.le_succ _) (by rintro ⟨⟩)
  | returned => cases h

theorem stopStep_simulated {p : StopPc} (law : Gauged sh (.stop p ::ₘ rest))
    (hclosed : (Pc.stop p).closing = true → sh.acct.admission.closed = true)
    (h : stopStep sh p = some (sh', p')) (hn : ∀ e, p' ≠ .panicked e) :
    Wakeup.Step (rules exitGuard parkGuard) (board sh) (rest.map Pc.role) (Pc.stop p).role
      (board sh') p'.role [] := by
  have hfree := law.holds_rest
  cases p with
  | close =>
    cases h
    exact .close
  | lockState =>
    obtain ⟨s, hs, h⟩ := Option.map_eq_some_iff.mp h
    obtain ⟨hf, rfl⟩ := sh.lock_eq_some hs
    have hz := hfree (by simp [hf])
    cases hl : sh.state.lifecycle <;> simp only [hl] at h <;> cases h
    · have hrank : (board sh).mode.rank ≤ Mode.halted.rank := by simp [board, hl, mode, Mode.rank]
      exact .setMode (le_refl _) hz (hclosed rfl) hrank
    · have hrank : (board sh).mode.rank ≤ Mode.halted.rank := by simp [board, hl, mode, Mode.rank]
      exact .setMode (le_refl _) hz (hclosed rfl) hrank
    · exact .acquire hz
    · exact .acquire hz
  | drain running jobs =>
    simp only [stopStep] at h
    split at h
    · cases h
      exact stutter rfl rfl
    · rename_i i q hq
      have hsub : ∀ k ∈ q, k ∈ (board sh).items := by
        intro k hk
        change k ∈ sh.globalQueue
        rw [hq]
        exact List.mem_cons_of_mem i hk
      split at h
      · rename_i hs
        obtain rfl := takeQueued_eq_some hs
        cases h
        exact .take hsub
      · cases h
        exact .take hsub
  | next jobs report =>
    cases jobs <;> cases h
    all_goals exact stutter rfl rfl
  | _ =>
    simp only [stopStep, Shared.lock, Shared.lockQueue, Shared.withLock, Shared.lower] at h
    repeat' split at h
    all_goals cases h
    all_goals first
      | exact absurd rfl (hn _)
      | exact stutter rfl rfl
      | exact stutter (board_sub ‹_›) rfl
      | exact .acquire (hfree ‹_›)
      | exact .release (le_refl _) (by rintro ⟨⟩)
      | exact .release (Nat.le_succ _) (by rintro ⟨⟩)
      | exact .still (Nat.le_succ _)

theorem ticketStep_simulated {p : TicketPc} (h : ticketStep sh j p = some (sh', p'))
    (hn : ∀ e, p' ≠ .panicked e) :
    Wakeup.Step (rules exitGuard parkGuard) (board sh) (rest.map Pc.role) (Pc.ticket j p).role
      (board sh') p'.role [] := by
  cases p with
  | remove =>
    simp only [ticketStep] at h
    split at h
    · split at h
      · rename_i hs
        obtain rfl := takeQueued_eq_some hs
        cases h
        exact .take fun k hk => List.mem_of_mem_erase hk
      · cases h
        exact stutter rfl rfl
    · cases h
      exact stutter rfl rfl
  | _ =>
    simp only [ticketStep, Shared.lockQueue, Shared.lower] at h
    repeat' split at h
    all_goals cases h
    all_goals first
      | exact absurd rfl (hn _)
      | exact stutter rfl rfl
      | exact stutter (board_sub ‹_›) rfl

theorem cancelStep_simulated {p : CancelPc} {k : CancelCaller} (h : cancelStep sh k p = some (sh', p'))
    (hn : ∀ e, p' ≠ .panicked e) :
    Wakeup.Step (rules exitGuard parkGuard) (board sh) (rest.map Pc.role) (Pc.cancel p k).role
      (board sh') p'.role [] := by
  cases p with
  | subSlot =>
    simp only [cancelStep, Shared.lower] at h
    split at h
    · rename_i a ha
      have hb : board (sh.setAcct a) = board sh := board_sub ha
      cases h
      exact stutter hb rfl
    · cases h
      exact absurd rfl (hn _)
  | done =>
    cases k <;> cases h
    all_goals exact stutter rfl rfl
  | _ =>
    simp only [cancelStep, Shared.lower] at h
    repeat' split at h
    all_goals cases h
    all_goals first
      | exact absurd rfl (hn _)
      | exact stutter rfl rfl
      | exact stutter (board_sub ‹_›) rfl

theorem joinStep_simulated {p : JoinPc} (law : Gauged sh (.join p ::ₘ rest))
    (h : joinStep sh p = some (sh', p')) (hn : ∀ e, p' ≠ .panicked e) :
    Wakeup.Step (rules exitGuard parkGuard) (board sh) (rest.map Pc.role) (Pc.join p).role
      (board sh') p'.role [] := by
  have hfree := law.holds_rest
  cases p
  all_goals simp only [joinStep, Shared.lock] at h
  all_goals repeat' split at h
  all_goals cases h
  all_goals first
    | exact absurd rfl (hn _)
    | exact stutter rfl rfl
    | exact .acquire (hfree ‹_›)
    | exact .release (le_refl _) (by rintro ⟨⟩)

theorem observeStep_simulated {p : ObservePc} (law : Gauged sh (.observe p ::ₘ rest))
    (h : observeStep sh c p = some (sh', p')) :
    Wakeup.Step (rules exitGuard parkGuard) (board sh) (rest.map Pc.role) (Pc.observe p).role
      (board sh') p'.role [] := by
  have hfree := law.holds_rest
  cases p with
  | lockState o =>
    obtain ⟨s, hs, h⟩ := Option.map_eq_some_iff.mp h
    obtain ⟨hf, rfl⟩ := sh.lock_eq_some hs
    cases o <;> cases h
    all_goals exact .acquire (hfree (by simp [hf]))
  | _ =>
    simp only [observeStep, Shared.lock] at h
    repeat' split at h
    all_goals cases h
    all_goals first
      | exact stutter rfl rfl
      | exact .acquire (hfree ‹_›)
      | exact .release (le_refl _) (by rintro ⟨⟩)

theorem setterStep_simulated {p : SetterPc} (h : setterStep sh p = some (sh', p')) :
    Wakeup.Step (rules exitGuard parkGuard) (board sh) (rest.map Pc.role) (Pc.setter p).role
      (board sh') p'.role [] := by
  cases p
  all_goals simp only [setterStep, Shared.withLock] at h
  all_goals repeat' split at h
  all_goals cases h
  all_goals first
    | exact stutter rfl rfl
    | exact .still (Nat.le_succ _)

theorem TermCaller.refuted_role (k : TermCaller) : k.refuted.role = (Pc.term k).role := by
  cases k with
  | observer o => cases o <;> rfl
  | _ => rfl

theorem TermCaller.confirmed_role (k : TermCaller) : k.confirmed.role = (Pc.term k).role := by
  cases k with
  | observer o => cases o <;> rfl
  | _ => rfl

theorem TermCaller.published_role (k : TermCaller) : k.published.role = (Pc.publish k).role := by
  cases k with
  | observer o => cases o <;> rfl
  | _ => rfl

theorem IdleCaller.decided_role (k : IdleCaller) (r : IdleRead) (b : Bool) :
    (k.decided b).role = (Pc.idle r k).role := by
  cases k with
  | term k =>
    cases b
    · exact k.refuted_role
    · exact k.confirmed_role
  | _ => cases b <;> rfl

theorem idleStep_role (sh : Shared) (r : IdleRead) (k : IdleCaller) :
    (idleStep sh r k).role = (Pc.idle r k).role := by
  unfold idleStep
  split
  · split
    · cases k <;> rfl
    · exact k.decided_role r true
  · exact k.decided_role r false

end ThreadPools.Dynamic
