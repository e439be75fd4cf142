import ThreadPools.Fixed.Arrivals

/-! # Lock and headcounts of the fixed pool -/
namespace ThreadPools.Fixed
open Interleaving

inductive Gauge where
  | monitor | inflight | liveWorkers | idleWorkers | idleWorkerCount | submitWaiters | idleWaiters

def Gauge.value (sh : Shared) : Gauge → ℕ
  | .monitor => sh.locked.toNat
  | .inflight => sh.acct.inflightCount
  | .liveWorkers => sh.state.liveWorkers
  | .idleWorkers => sh.state.idleWorkers
  | .idleWorkerCount => sh.idleWorkerCount
  | .submitWaiters => sh.submitWaiterCount
  | .idleWaiters => sh.idleWaiterCount

def WorkerPc.locks : WorkerPc → Bool
  | .dispatch | .waitQueued | .mark | .readQueued | .readPending | .park | .unmark _ | .consume _
  | .unlock | .drainQueued | .drainInflight | .drainMark | .drainReadQueued | .drainReadInflight
  | .drainPark => true
  | _ => false

def StopPc.locks : StopPc → Bool
  | .readInflight _ | .addWaiter _ | .recheck _ | .park _ | .subWaiter _ | .readRunning _ | .drain _ _
  | .begin _ _ _ | .beginCancelling _ _ _ _ | .afterCancelling _ _ | .afterCancelled _ _ _
  | .notifyAll _ _ => true
  | _ => false

def JoinPc.locks : JoinPc → Bool
  | .park | .subWaiter | .unlock => true
  | _ => false

def ObservePc.locks : ObservePc → Bool
  | .term _ | .park | .unlock _ _ => true
  | _ => false

def Pc.locks : Pc → Bool
  | .worker p => p.locks
  | .stop p => p.locks
  | .join p => p.locks
  | .observe p => p.locks
  | .idle _ .finishedRunning => false
  | .idle _ _ => true
  | _ => false

def SubmitPc.inside : SubmitPc → Bool
  | .enter | .departGate _ | .departWaiters _ | .departNotify _ | .returned _ => false
  | _ => true

def Pc.inside : Pc → Bool
  | .submit _ p => p.inside
  | _ => false

def WorkerPc.live : WorkerPc → Bool
  | .exited => false
  | _ => true

def Pc.live : Pc → Bool
  | .worker p => p.live
  | .cancel _ (.worker _) => true
  | .idle _ .finishedRunning => true
  | _ => false

def Pc.marked : Pc → Bool
  | .worker .readQueued | .worker .readPending | .worker .park | .worker (.parked _)
  | .worker (.unmark _) | .worker .drainReadQueued | .worker .drainReadInflight | .worker .drainPark
  | .worker (.drainParked _) => true
  | _ => false

def Pc.submitWaits : Pc → Bool
  | .stop (.recheck _) | .stop (.park _) | .stop (.parked _ _) | .stop (.subWaiter _) => true
  | _ => false

def Pc.idleWaits : Pc → Bool
  | .join .lockState | .join .park | .join (.parked _) | .join .subWaiter | .idle _ .join => true
  | _ => false

def Gauge.weight (g : Gauge) (p : Pc) : ℕ :=
  match g with
  | .monitor => p.locks.toNat
  | .inflight => p.inside.toNat
  | .liveWorkers => p.live.toNat
  | .idleWorkers | .idleWorkerCount => p.marked.toNat
  | .submitWaiters => p.submitWaits.toNat
  | .idleWaiters => p.idleWaits.toNat

def Gauged (sh : Shared) (ps : Multiset Pc) : Prop := ∀ g : Gauge, g.value sh = total g.weight ps

def Balanced (sh : Shared) (p : Pc) (sh' : Shared) (p' : Pc) : Prop :=
  ∀ g : Gauge, g.value sh' + g.weight p = g.value sh + g.weight p'

variable {sh sh' : Shared} {p p' : Pc} {rest : Multiset Pc} {c : Outcome} {j : JobId}

-- The ways in which a single gauge moves.
theorem balance_lock {b : Bool} (h : ¬ b = true) : true.toNat + 0 = b.toNat + 1 := by
  simp [Bool.eq_false_iff.mpr h]

theorem balance_unlock {b : Bool} (h : b = true) : false.toNat + 1 = b.toNat + 0 := by simp [h]

theorem balance_sub {v : ℕ} (h : 0 < v) : v - 1 + 1 = v + 0 := by omega

theorem balance_keep {v v' x : ℕ} (h : v' = v) : v' + x = v + x := by rw [h]

theorem workerStep_balanced {p : WorkerPc} (hl : p.locks = true → sh.locked = true)
    (h : workerStep sh p = some (sh', p')) (hn : ∀ e, p' ≠ .panicked e) :
    Balanced sh (.worker p) sh' p' := by
  intro g
  cases p with
  | consume again =>
    cases again <;> cases h
    all_goals cases g <;> rfl
  | _ =>
    simp only [workerStep, Shared.lock, Shared.withLock, Shared.lower] at h
    repeat' split at h
    all_goals first | (simp only [Option.map_some] at h; (repeat' split at h) <;> cases h) | cases h
    all_goals first | exact absurd rfl (hn _) | cases g
    all_goals first
      | rfl
      | exact balance_lock ‹_›
      | exact balance_unlock (hl rfl)
      | exact balance_sub ‹_›
      | exact balance_sub (And.left ‹_›)
      | exact balance_sub (And.right ‹_›)
      | exact balance_keep (PoolAccounting.inflightCount_of_sub ‹_›)

theorem submitStep_balanced {p : SubmitPc} (h : submitStep sh j c p = some (sh', p'))
    (hn : ∀ e, p' ≠ .panicked e) : Balanced sh (.submit j p) sh' p' := by
  intro g
  cases p with
  | enter =>
    simp only [submitStep] at h
    split at h
    · rename_i ha
      cases h
      cases g with
      | inflight => exact PoolAccounting.inflightCount_of_tryEnter ha
      | _ => rfl
    · cases h
      cases g <;> rfl
  | reserve =>
    simp only [submitStep] at h
    split at h
    · rename_i ha
      obtain rfl := PoolAccounting.tryReserveBoundedSlot_eq ha
      cases h
      cases g <;> rfl
    · cases h
      cases g <;> rfl
  | leave result =>
    simp only [submitStep] at h
    split at h
    · rename_i a last ha
      cases last <;> cases h
      all_goals
        cases g with
        | inflight => exact PoolAccounting.inflightCount_of_leave ha
        | _ => rfl
    · cases h
      exact absurd rfl (hn _)
  | _ =>
    simp only [submitStep, Shared.withLock, Shared.lower] at h
    repeat' split at h
    all_goals cases h
    all_goals first | exact absurd rfl (hn _) | cases g
    all_goals first
      | rfl
      | exact balance_keep (PoolAccounting.inflightCount_of_sub ‹_›)

theorem stopStep_balanced {p : StopPc} (hl : p.locks = true → sh.locked = true)
    (h : stopStep sh p = some (sh', p')) (hn : ∀ e, p' ≠ .panicked e) : Balanced sh (.stop p) sh' p' := by
  intro g
  cases p with
  | begin info begun jobs =>
    cases jobs with
    | nil =>
      cases h
      cases g <;> rfl
    | cons i rest =>
      simp only [stopStep, Shared.lower] at h
      split at h <;> cases h
      · cases g <;> first | rfl | exact balance_keep (PoolAccounting.inflightCount_of_sub ‹_›)
      · exact absurd rfl (hn _)
  | next jobs report =>
    cases jobs <;> cases h
    all_goals cases g <;> rfl
  | lockState info =>
    obtain ⟨s, hs, h⟩ := Option.map_eq_some_iff.mp h
    obtain ⟨hf, rfl⟩ := sh.lock_eq_some hs
    cases hlc : sh.state.lifecycle <;> simp only [hlc] at h <;> cases h
    all_goals cases g <;> first | rfl | exact balance_lock (by simp [hf])
  | _ =>
    simp only [stopStep, Shared.lock, Shared.withLock] at h
    repeat' split at h
    all_goals cases h
    all_goals first | exact absurd rfl (hn _) | cases g
    all_goals first
      | rfl
      | exact balance_lock ‹_›
      | exact balance_unlock (hl rfl)
      | exact balance_sub ‹_›

theorem cancelStep_balanced {p : CancelPc} {k : CancelCaller} (h : cancelStep sh k p = some (sh', p'))
    (hn : ∀ e, p' ≠ .panicked e) : Balanced sh (.cancel p k) sh' p' := by
  intro g
  cases k
  all_goals
    cases p
    all_goals simp only [cancelStep, Shared.withLock, Shared.lower] at h
    all_goals repeat' split at h
    all_goals cases h
    all_goals first | exact absurd rfl (hn _) | cases g
    all_goals first
      | rfl
      | exact balance_keep (PoolAccounting.inflightCount_of_sub ‹_›)

theorem joinStep_balanced {p : JoinPc} (hl : p.locks = true → sh.locked = true)
    (h : joinStep sh p = some (sh', p')) (hn : ∀ e, p' ≠ .panicked e) : Balanced sh (.join p) sh' p' := by
  intro g
  cases p
  all_goals simp only [joinStep, Shared.lock] at h
  all_goals repeat' split at h
  all_goals cases h
  all_goals first | exact absurd rfl (hn _) | cases g
  all_goals first
    | rfl
    | exact balance_lock ‹_›
    | exact balance_unlock (hl rfl)
    | exact balance_sub ‹_›

theorem observeStep_balanced {p : ObservePc} (hl : p.locks = true → sh.locked = true)
    (h : observeStep sh c p = some (sh', p')) : Balanced sh (.observe p) sh' p' := by
  intro g
  cases p with
  | term o =>
    simp only [observeStep] at h
    split at h <;> cases h
    · cases g <;> rfl
    · cases o <;> cases g <;> rfl
  | _ =>
    simp only [observeStep, Shared.lock] at h
    repeat' split at h
    all_goals cases h
    all_goals cases g
    all_goals first
      | rfl
      | exact balance_lock ‹_›
      | exact balance_unlock (hl rfl)

theorem idleStep_weight (sh : Shared) (r : IdleRead) (k : IdleCaller) (g : Gauge) :
    g.weight (idleStep sh r k) = g.weight (.idle r k) := by
  unfold idleStep
  repeat' split
  all_goals
    cases k with
    | term o => cases o <;> cases g <;> rfl
    | _ => cases g <;> rfl

theorem step_balanced (hl : p.locks = true → sh.locked = true) (h : step sh c p = some (sh', p'))
    (hn : ∀ e, p' ≠ .panicked e) : Balanced sh p sh' p' := by
  cases p with
  | submit j p => exact submitStep_balanced h hn
  | worker p => exact workerStep_balanced hl h hn
  | shutdown p =>
    intro g
    cases p with
    | lockState =>
      obtain ⟨s, hs, h⟩ := Option.map_eq_some_iff.mp h
      obtain ⟨-, rfl⟩ := sh.withLock_eq_some hs
      cases h
      split <;> cases g <;> rfl
    | close =>
      cases h
      cases g <;> rfl
    | returned => cases h
  | stop p => exact stopStep_balanced hl h hn
  | cancel p k => exact cancelStep_balanced h hn
  | join p => exact joinStep_balanced hl h hn
  | observe p => exact observeStep_balanced hl h
  | idle r k =>
    cases h
    intro g
    rw [idleStep_weight]
  | panicked _ => cases h

namespace Gauged

theorem le_value (law : Gauged sh (p ::ₘ rest)) (g : Gauge) : g.weight p ≤ g.value sh := by
  have h := law g
  rw [total_cons] at h
  omega

theorem exclusive (law : Gauged sh (p ::ₘ rest)) (hp : p.locks = true) : ∀ q ∈ rest, q.locks = false := by
  have h := law .monitor
  have hw : Gauge.monitor.weight p = 1 := by simp [Gauge.weight, hp]
  have hv : Gauge.monitor.value sh ≤ 1 := Bool.toNat_le _
  rw [total_cons, hw] at h
  have hz : total Gauge.monitor.weight rest = 0 := by omega
  intro q hq
  have := total_eq_zero_iff.mp hz q hq
  simpa [Gauge.weight] using this

theorem locked (law : Gauged sh (p ::ₘ rest)) (hp : p.locks = true) : sh.locked = true := by
  have h := law.le_value .monitor
  cases hl : sh.locked with
  | true => rfl
  | false => simp [Gauge.weight, Gauge.value, hp, hl] at h

theorem advance (law : Gauged sh (p ::ₘ rest)) (hb : Balanced sh p sh' p') : Gauged sh' (p' ::ₘ rest) := by
  intro g
  have h := law g
  have hb := hb g
  simp only [total_cons] at h ⊢
  omega

theorem eq_zero {ps : Multiset Pc} (law : Gauged sh ps) {g : Gauge} (hz : g.value sh = 0) :
    ∀ p ∈ ps, g.weight p = 0 := by
  have h := law g
  rw [hz] at h
  exact total_eq_zero_iff.mp h.symm

theorem sound (law : Gauged sh (p ::ₘ rest)) {e : Panic} (h : step sh c p = some (sh', .panicked e)) :
    ∃ d, e = .counter d := by
  cases p with
  | submit j p =>
    cases p with
    | leave result =>
      simp only [step, submitStep] at h
      split at h
      · cases h
      · rename_i ha
        have hpos : 0 < sh.acct.admission.inflight := law.le_value .inflight
        simp [PoolAccounting.leave, AdmissionGate.leave, hpos] at ha
    | _ =>
      simp only [step, submitStep, Shared.withLock, Shared.lower] at h
      repeat' split at h
      all_goals cases h
      all_goals exact ⟨_, rfl⟩
  | worker p =>
    have ha := workerStep_arrives h
    cases e with
    | counter d => exact ⟨d, rfl⟩
    | idleWorkers =>
      obtain ⟨⟨again, rfl⟩, hn⟩ := ha
      have hidle : 0 < sh.state.idleWorkers := law.le_value .idleWorkers
      have hcount : 0 < sh.idleWorkerCount := law.le_value .idleWorkerCount
      exact absurd ⟨hidle, hcount⟩ hn
    | liveWorkers =>
      obtain ⟨rfl, hn⟩ := ha
      exact absurd (law.le_value .liveWorkers) hn
    | admission | submitWaiters | idleWaiters => cases ha
  | shutdown p => cases p <;> simp [step, shutdownStep] at h
  | stop p =>
    have ha := stopStep_arrives h
    cases e with
    | counter d => exact ⟨d, rfl⟩
    | submitWaiters =>
      obtain ⟨⟨info, rfl⟩, hn⟩ := ha
      exact absurd (law.le_value .submitWaiters) hn
    | _ => cases ha
  | cancel p k =>
    cases k
    all_goals
      cases p
      all_goals simp only [step, cancelStep, Shared.withLock, Shared.lower] at h
      all_goals repeat' split at h
      all_goals cases h
      all_goals exact ⟨_, rfl⟩
  | join p =>
    cases p with
    | subWaiter =>
      have hpos : 0 < sh.idleWaiterCount := law.le_value .idleWaiters
      simp only [step, joinStep, if_pos hpos] at h
      cases h
    | _ => simp [step, joinStep] at h
  | observe p =>
    cases p with
    | term o =>
      simp only [step, observeStep] at h
      split at h
      · cases h
      · cases o <;> cases h
    | _ =>
      simp only [step, observeStep, Shared.lock] at h
      repeat' split at h
      all_goals cases h
  | idle r k => exact absurd (congrArg Prod.snd (Option.some.inj h)) (idleStep_sound sh r k e)
  | panicked _ => cases h

end Gauged

end ThreadPools.Fixed
