import ThreadPools.Fixed.Step

/-! # The book of the fixed pool -/
namespace ThreadPools.Fixed
open Interleaving
open Book (entered single entered_add single_add)

def SubmitPc.phase : SubmitPc → Option Phase
  | .enter | .reserve => some .offered
  | .callAccept => some .reserved
  | .accepting => some .accepting
  | .rollback => some .refused
  | .rollbackNotify => some (.rejected .acceptancePanicked)
  | .discard error => some (.rejected error)
  | .publishSubmitted => some .accepted
  | .publishQueued => some .submitted
  | .push => some .queued
  | .loadIdle | .raiseToken _ | .broadcast => none
  | .leave result | .departGate result | .departWaiters result | .departNotify result
  | .returned result => result.map .rejected

def WorkerPc.held : WorkerPc → Option (JobId × Phase)
  | .acceptStop j | .claimQueued j | .withdraw j => some (j, .queued)
  | .claimRunning j => some (j, .claiming)
  | .claimSlot j => some (j, .claimed)
  | .cancelling j => some (j, .withdrawing)
  | .callRun j => some (j, .ready)
  | .running j => some (j, .running)
  | .finishCompleted j => some (j, .ran)
  | .finishRunning j => some (j, .finishing)
  | _ => none

def CancelPc.phase : CancelPc → Phase
  | .call => .withdrawn
  | .running => .cancelling
  | .addCancelled => .cancelReturned
  | .subCancelling => .settling
  | .subSlot => .settled
  | .notify | .done => .cancelled

/-- A stop call first steals all jobs, then begins to cancel each of them. -/
def StopPc.holdings (B : Book) : StopPc → Book
  | .drain _ jobs => entered .queued jobs B
  | .begin _ begun jobs => entered .queued jobs (entered .withdrawn begun B)
  | .beginCancelling _ begun j jobs =>
    (j, .withdrawing) ::ₘ entered .queued jobs (entered .withdrawn begun B)
  | .afterCancelling _ jobs | .afterCancelled _ jobs _ | .notifyAll jobs _ | .next jobs _ =>
    entered .withdrawn jobs B
  | _ => B

def Pc.onto (B : Book) : Pc → Book
  | .submit j p => single (p.phase.map (j, ·)) B
  | .worker p => single p.held B
  | .stop p => p.holdings B
  | .cancel p k => (k.job, p.phase) ::ₘ entered .withdrawn k.rest B
  | _ => B

def Pc.holdings (p : Pc) : Book := p.onto 0

theorem StopPc.holdings_add (p : StopPc) (A B : Book) : p.holdings (A + B) = p.holdings A + B := by
  cases p <;> simp only [StopPc.holdings, entered_add, Multiset.cons_add]

theorem Pc.onto_eq (p : Pc) (B : Book) : p.onto B = p.holdings + B := by
  have h : p.onto (0 + B) = p.onto 0 + B := by
    cases p with
    | stop p => exact p.holdings_add 0 B
    | _ => simp only [Pc.onto, single_add, entered_add, Multiset.cons_add]
  rwa [zero_add] at h

def stored (sh : Shared) : Book := Book.stored sh.globalQueue sh.finished

def book (sh : Shared) (ps : Multiset Pc) : Book := stored sh + ps.bind Pc.holdings

def Recorded (sh : Shared) (held : Book) : Prop := Law sh.acct sh.history sh.offered (stored sh + held)

namespace Shared
variable (sh : Shared)

theorem lock_eq_some {s : Shared} (h : sh.lock = some s) :
    sh.locked = false ∧ s = { sh with locked := true } := by
  unfold lock at h
  split at h
  · cases h
  · rename_i hl
    exact ⟨by simpa using hl, (Option.some.inj h).symm⟩

theorem withLock_eq_some {f : Shared → Shared} {s : Shared} (h : sh.withLock f = some s) :
    sh.locked = false ∧ s = f sh := by
  unfold withLock at h
  split at h
  · cases h
  · rename_i hl
    exact ⟨by simpa using hl, (Option.some.inj h).symm⟩

end Shared

namespace Recorded
variable {sh : Shared} {j : JobId} {ph ph' : Phase} {held : Book}

theorem entry (r : Recorded sh ((j, ph) ::ₘ held)) :
    Law sh.acct sh.history sh.offered ((j, ph) ::ₘ (stored sh + held)) := by
  rw [← Multiset.add_cons]
  exact r

theorem raise (r : Recorded sh ((j, ph) ::ₘ held)) {c : Counter} (hw : Phase.Raises c ph ph')
    (hh : ph'.history = ph.history) : Recorded (sh.raise c) ((j, ph') ::ₘ held) := by
  unfold Recorded
  rw [Multiset.add_cons]
  exact r.entry.raise hw hh

theorem lower (r : Recorded sh ((j, ph) ::ₘ held)) {c : Counter} (hw : Phase.Raises c ph' ph)
    (hh : ph'.history = ph.history) :
    ∃ a, sh.acct.sub c = some a ∧ Recorded (sh.setAcct a) ((j, ph') ::ₘ held) := by
  have hh' : ph'.history = ph.history ++ [] := by simpa using hh
  obtain ⟨a, ha, hl⟩ := r.entry.lower hw hh'
  rw [List.append_nil, Function.update_eq_self] at hl
  refine ⟨a, ha, ?_⟩
  unfold Recorded
  rw [Multiset.add_cons]
  exact hl

theorem settle (r : Recorded sh ((j, ph) ::ₘ held)) {c : Counter} (hw : Phase.Raises c ph' ph)
    (hh : ph'.history = ph.history ++ [JobEvent.accounted]) :
    ∃ a, sh.acct.sub c = some a ∧ Recorded ((sh.setAcct a).record j .accounted) ((j, ph') ::ₘ held) := by
  obtain ⟨a, ha, hl⟩ := r.entry.lower hw hh
  refine ⟨a, ha, ?_⟩
  unfold Recorded
  rw [Multiset.add_cons]
  exact hl

theorem trace (r : Recorded sh ((j, ph) ::ₘ held)) (e : JobEvent)
    (hw : ∀ d, Phase.weight d ph' = Phase.weight d ph) (hh : ph'.history = ph.history ++ [e]) :
    Recorded (sh.record j e) ((j, ph') ::ₘ held) := by
  unfold Recorded
  rw [Multiset.add_cons]
  exact r.entry.trace hw hh

theorem rephase (r : Recorded sh ((j, ph) ::ₘ held))
    (hw : ∀ d, Phase.weight d ph' = Phase.weight d ph) (hh : ph'.history = ph.history) :
    Recorded sh ((j, ph') ::ₘ held) := by
  have hh' : ph'.history = ph.history ++ [] := by simpa using hh
  have hl := r.entry.trace hw hh'
  rw [List.append_nil, Function.update_eq_self] at hl
  unfold Recorded
  rw [Multiset.add_cons]
  exact hl

theorem finish {e : Ending} (r : Recorded sh ((j, e.phase) ::ₘ held)) : Recorded (sh.finish j e) held := by
  unfold Recorded
  rw [show stored (sh.finish j e) + held = stored sh + (j, e.phase) ::ₘ held from Book.stored_finish]
  exact r

theorem push (r : Recorded sh ((j, .queued) ::ₘ held)) :
    Recorded { sh with globalQueue := sh.globalQueue ++ [j] } held := by
  have hs : stored { sh with globalQueue := sh.globalQueue ++ [j] } + held =
      stored sh + (j, .queued) ::ₘ held := Book.stored_push
  unfold Recorded
  rw [hs]
  exact r

/-- Whoever steals a job owns it. -/
theorem steal (r : Recorded sh held) {q : List JobId} (hq : sh.globalQueue = j :: q) :
    Recorded { sh with globalQueue := q } ((j, .queued) ::ₘ held) := by
  have hs : stored sh + held = stored { sh with globalQueue := q } + (j, .queued) ::ₘ held :=
    Book.stored_remove (by rw [hq])
  unfold Recorded at r ⊢
  rw [← hs]
  exact r

/-- A queued count of zero leaves nothing in the injector. -/
theorem queue_nil (r : Recorded sh held) (hz : sh.acct.queuedCount = 0) : sh.globalQueue = [] := by
  have hc := r.counts .queued
  rw [show sh.acct.count .queued = 0 from hz] at hc
  refine List.eq_nil_iff_forall_not_mem.mpr fun i hi => ?_
  have hm : (i, Phase.queued) ∈ stored sh + held := Multiset.mem_add.mpr (Or.inl (Book.mem_stored hi))
  have := total_eq_zero_iff.mp hc.symm _ hm
  simp [Phase.weight] at this

theorem weight_pos {d : Counter} (r : Recorded sh ((j, ph) ::ₘ held)) (hw : 0 < Phase.weight d ph) :
    0 < sh.acct.count d := by
  rw [r.entry.counts d]
  exact total_pos_iff.mpr ⟨_, Multiset.mem_cons_self _ _, hw⟩

end Recorded

structure Posted (sh : Shared) (p : Pc) (B : Book) : Prop where
  sound : ∀ c, p ≠ .panicked (.counter c)
  recorded : Recorded sh (p.onto B)

variable {sh sh' : Shared} {p' : Pc} {c : Outcome} {B : Book} {j : JobId}

theorem workerStep_posted {p : WorkerPc} (r : Recorded sh ((Pc.worker p).onto B))
    (h : workerStep sh p = some (sh', p')) : Posted sh' p' B := by
  cases p with
  | steal =>
    simp only [workerStep] at h
    split at h
    · cases h
      exact ⟨nofun, r⟩
    · rename_i hq
      cases h
      exact ⟨nofun, r.steal hq⟩
  | acceptStop j =>
    simp only [workerStep] at h
    split at h <;> cases h
    all_goals exact ⟨nofun, r⟩
  | claimQueued j =>
    obtain ⟨a, ha, hr⟩ := r.lower Phase.raises_unclaimed rfl
    simp only [workerStep, Shared.lower, ha] at h
    cases h
    exact ⟨nofun, hr⟩
  | claimRunning j =>
    cases h
    exact ⟨nofun, r.raise Phase.raises_claimed rfl⟩
  | claimSlot j =>
    obtain ⟨a, ha, hr⟩ := r.lower Phase.raises_unready rfl
    simp only [workerStep, Shared.lower, ha] at h
    cases h
    exact ⟨nofun, hr⟩
  | withdraw j =>
    obtain ⟨a, ha, hr⟩ := r.lower Phase.raises_unwithdrawn rfl
    simp only [workerStep, Shared.lower, ha] at h
    cases h
    exact ⟨nofun, hr⟩
  | cancelling j =>
    cases h
    exact ⟨nofun, r.raise Phase.raises_withdrawn rfl⟩
  | callRun j =>
    cases h
    exact ⟨nofun, r.trace .runBegin (fun d => by cases d <;> rfl) rfl⟩
  | running j =>
    cases h
    exact ⟨nofun, r.trace .runEnd (fun d => by cases d <;> rfl) rfl⟩
  | finishCompleted j =>
    cases h
    exact ⟨nofun, r.raise Phase.raises_finishing rfl⟩
  | finishRunning j =>
    obtain ⟨a, ha, hr⟩ := r.settle Phase.raises_uncompleted rfl
    simp only [workerStep, Shared.lower, ha] at h
    cases h
    exact ⟨nofun, hr.finish⟩
  | _ =>
    simp only [workerStep, Shared.lock, Shared.withLock] at h
    repeat' split at h
    all_goals first | (simp only [Option.map_some] at h; (repeat' split at h) <;> cases h) | cases h
    all_goals exact ⟨nofun, r⟩

theorem submitStep_posted {p : SubmitPc} (r : Recorded sh ((Pc.submit j p).onto B))
    (h : submitStep sh j c p = some (sh', p')) (hg : ∀ e, p' = .panicked e → ∃ c, e = .counter c) :
    Posted sh' p' B := by
  cases p with
  | enter =>
    simp only [submitStep] at h
    split at h
    · rename_i a ha
      obtain ⟨g, -, rfl⟩ := Option.map_eq_some_iff.mp ha
      cases h
      exact ⟨nofun, Law.regate r g⟩
    · cases h
      exact ⟨nofun, r.rephase (fun d => by cases d <;> rfl) rfl⟩
  | reserve =>
    simp only [submitStep] at h
    split at h
    · rename_i a ha
      obtain rfl := PoolAccounting.tryReserveBoundedSlot_eq ha
      cases h
      exact ⟨nofun, r.raise Phase.raises_reserved rfl⟩
    · cases h
      exact ⟨nofun, r.rephase (fun d => by cases d <;> rfl) rfl⟩
  | callAccept =>
    cases h
    exact ⟨nofun, r.trace .acceptBegin (fun d => by cases d <;> rfl) rfl⟩
  | accepting =>
    cases c with
    | ok =>
      cases h
      exact ⟨nofun, r.trace .acceptEnd (fun d => by cases d <;> rfl) rfl⟩
    | err =>
      cases h
      exact ⟨nofun, r.trace .acceptPanicked (fun d => by cases d <;> rfl) rfl⟩
  | rollback =>
    obtain ⟨a, ha, hr⟩ := r.lower Phase.raises_refused rfl
    simp only [submitStep, Shared.lower, ha] at h
    cases h
    exact ⟨nofun, hr⟩
  | publishSubmitted =>
    cases h
    exact ⟨nofun, r.raise Phase.raises_submitted rfl⟩
  | publishQueued =>
    cases h
    exact ⟨nofun, r.raise Phase.raises_queued rfl⟩
  | push =>
    cases h
    exact ⟨nofun, r.push⟩
  | leave result =>
    simp only [submitStep] at h
    split at h
    · rename_i a last ha
      obtain ⟨g, -, he⟩ := Option.map_eq_some_iff.mp ha
      cases he
      cases h
      split
      all_goals exact ⟨nofun, Law.regate r g.1⟩
    · cases h
      obtain ⟨c, hc⟩ := hg _ rfl
      cases hc
  | _ =>
    simp only [submitStep, Shared.withLock] at h
    repeat' split at h
    all_goals cases h
    all_goals exact ⟨nofun, r⟩

theorem stopStep_posted {p : StopPc} (r : Recorded sh ((Pc.stop p).onto B))
    (h : stopStep sh p = some (sh', p')) : Posted sh' p' B := by
  cases p with
  | close info =>
    cases h
    exact ⟨nofun, Law.regate r _⟩
  | drain info jobs =>
    simp only [stopStep] at h
    split at h
    · cases h
      exact ⟨nofun, r⟩
    · rename_i i rest hq
      cases h
      refine ⟨nofun, ?_⟩
      have hr := Recorded.steal r hq
      rw [Pc.onto, StopPc.holdings, ← Book.entered_append] at hr
      exact hr
  | begin info begun jobs =>
    cases jobs with
    | nil =>
      cases h
      exact ⟨nofun, r⟩
    | cons i rest =>
      obtain ⟨a, ha, hr⟩ := r.lower Phase.raises_unwithdrawn rfl
      simp only [stopStep, Shared.lower, ha] at h
      cases h
      exact ⟨nofun, hr⟩
  | beginCancelling info begun i jobs =>
    cases h
    refine ⟨nofun, ?_⟩
    have hr := r.raise Phase.raises_withdrawn rfl
    have hs : (i, Phase.withdrawn) ::ₘ entered .queued jobs (entered .withdrawn begun B) =
        entered .queued jobs (entered .withdrawn (begun ++ [i]) B) := by
      rw [Book.entered_append, Book.entered_cons]
    rw [hs] at hr
    exact hr
  | next jobs report =>
    cases jobs <;> cases h
    all_goals exact ⟨nofun, r⟩
  | _ =>
    simp only [stopStep, Shared.lock, Shared.withLock] at h
    repeat' split at h
    all_goals first | (simp only [Option.map_some] at h; (repeat' split at h) <;> cases h) | cases h
    all_goals exact ⟨nofun, r⟩

theorem cancelStep_posted {p : CancelPc} {k : CancelCaller} (r : Recorded sh ((Pc.cancel p k).onto B))
    (h : cancelStep sh k p = some (sh', p')) : Posted sh' p' B := by
  cases p with
  | call =>
    cases h
    exact ⟨nofun, r.trace .cancelBegin (fun d => by cases d <;> rfl) rfl⟩
  | running =>
    cases h
    exact ⟨nofun, r.trace .cancelEnd (fun d => by cases d <;> rfl) rfl⟩
  | addCancelled =>
    cases h
    exact ⟨nofun, r.raise Phase.raises_settling rfl⟩
  | subCancelling =>
    obtain ⟨a, ha, hr⟩ := r.lower Phase.raises_unsettled rfl
    simp only [cancelStep, Shared.lower, ha] at h
    cases h
    exact ⟨nofun, hr⟩
  | subSlot =>
    obtain ⟨a, ha, hr⟩ := r.settle Phase.raises_uncancelled rfl
    simp only [cancelStep, Shared.lower, ha] at h
    cases h
    exact ⟨nofun, hr⟩
  | notify =>
    obtain ⟨s, hs, h⟩ := Option.map_eq_some_iff.mp h
    obtain ⟨-, rfl⟩ := sh.withLock_eq_some hs
    cases h
    exact ⟨nofun, r⟩
  | done =>
    cases k <;> cases h
    all_goals exact ⟨nofun, r.finish⟩

theorem idleStep_onto (sh : Shared) (r : IdleRead) (k : IdleCaller) (B : Book) :
    (idleStep sh r k).onto B = B := by
  unfold idleStep
  repeat' split
  all_goals
    cases k with
    | term o => cases o <;> rfl
    | _ => rfl

theorem step_posted {p : Pc} (r : Recorded sh (p.onto B)) (h : step sh c p = some (sh', p'))
    (hg : ∀ e, p' = .panicked e → ∃ c, e = .counter c) : Posted sh' p' B := by
  cases p with
  | submit j p => exact submitStep_posted r h hg
  | worker p => exact workerStep_posted r h
  | shutdown p =>
    cases p with
    | close =>
      cases h
      exact ⟨nofun, Law.regate r _⟩
    | lockState =>
      obtain ⟨s, hs, h⟩ := Option.map_eq_some_iff.mp h
      obtain ⟨-, rfl⟩ := sh.withLock_eq_some hs
      cases h
      refine ⟨nofun, ?_⟩
      split <;> exact r
    | returned => cases h
  | stop p => exact stopStep_posted r h
  | cancel p k => exact cancelStep_posted r h
  | join p =>
    cases p
    all_goals simp only [step, joinStep, Shared.lock] at h
    all_goals repeat' split at h
    all_goals cases h
    all_goals exact ⟨nofun, r⟩
  | observe p =>
    cases p with
    | term o =>
      simp only [step, observeStep] at h
      split at h <;> cases h
      · exact ⟨nofun, r⟩
      · cases o <;> exact ⟨nofun, r⟩
    | _ =>
      simp only [step, observeStep, Shared.lock] at h
      repeat' split at h
      all_goals cases h
      all_goals exact ⟨nofun, r⟩
  | idle rd k =>
    cases h
    refine ⟨fun c => idleStep_sound sh rd k _, ?_⟩
    rw [idleStep_onto]
    exact r
  | panicked _ => cases h

end ThreadPools.Fixed
