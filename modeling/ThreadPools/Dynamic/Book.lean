import ThreadPools.Dynamic.Step

/-! # The book of the dynamic pool

A job is in the FIFO, among the finished ones or in the hands of exactly one
actor. The control point of an actor determines the jobs it holds and their
phases; a control point inside a shared function holds what its caller holds.
-/
namespace ThreadPools.Dynamic
open Interleaving
open Book (entered single entered_add single_add)

def TermCaller.home : TermCaller → Pc
  | .notify k => k.resume
  | k => k.refuted

def IdleCaller.home : IdleCaller → Pc
  | .finishedCancelled k => .cancel .done k
  | .term k => k.home
  | k => k.decided false

/-- The control point of the calling function to which a shared function returns. -/
def Pc.home : Pc → Pc
  | .notifyLock k | .notifyAll k => k.resume
  | .term k | .publish k => k.home
  | .idle _ (.spawnFailed k) => .spawn .unlock k
  | .idle _ k => k.home
  | p => p

def SubmitPc.phase : SubmitPc → Option Phase
  | .enter | .lockState | .checkState | .reserveSlot | .handoff => some .offered
  | .unlockReserved | .beginAccept | .callAccept => some .reserved
  | .rejectUnlock error => some (.rejected (.rejected error))
  | .discard error => some (.rejected error)
  | .accepting => some .accepting
  | .rollback => some .refused
  | .rollbackNotify | .setRejected => some (.rejected .acceptancePanicked)
  | .lockQueue | .publishSubmitted => some .accepted
  | .publishQueued => some .submitted
  | .decideEntry | .requestedWithdraw => some .queued
  | .requestedCancelling => some .withdrawing
  | .requestedUnlock => some .withdrawn
  | .unlockQueue | .loadIdle | .raiseToken _ | .broadcast => none
  | .leave result | .departGate result | .departWaiters result | .returned result => result.map .rejected

def WorkerPc.held : WorkerPc → Option (JobId × Phase)
  | .claimQueued j => some (j, .queued)
  | .claimRunning j => some (j, .claiming)
  | .claimSlot j => some (j, .claimed)
  | .claimNotify j | .claimUnlock j | .callRun j => some (j, .ready)
  | .running j => some (j, .running)
  | .finishCompleted j => some (j, .ran)
  | .finishRunning j => some (j, .finishing)
  | _ => none

def TicketPc.phase : TicketPc → Option Phase
  | .withdraw => some .queued
  | .cancelling => some .withdrawing
  | .unlockQueue => some .withdrawn
  | _ => none

def CancelPc.phase : CancelPc → Phase
  | .call => .withdrawn
  | .running => .cancelling
  | .addCancelled => .cancelReturned
  | .subCancelling => .settling
  | .subSlot => .settled
  | .notifyCapacity | .done => .cancelled

def StopPc.holdings (B : Book) : StopPc → Book
  | .drain _ jobs | .unlockQueue _ jobs | .notifyAll jobs _ | .next jobs _ => entered .withdrawn jobs B
  | .drainWithdraw _ jobs j => (j, .queued) ::ₘ entered .withdrawn jobs B
  | .drainCancelling _ jobs j => (j, .withdrawing) ::ₘ entered .withdrawn jobs B
  | _ => B

def SpawnCaller.holdings (B : Book) : SpawnCaller → Book
  | .submit j => (j, .offered) ::ₘ B
  | .prestart => B

def Pc.direct (B : Book) : Pc → Book
  | .submit j p => single (p.phase.map (j, ·)) B
  | .spawn _ k => k.holdings B
  | .worker p => single p.held B
  | .stop p => p.holdings B
  | .ticket j p => single (p.phase.map (j, ·)) B
  | .cancel p k => (k.job, p.phase) ::ₘ entered .withdrawn k.rest B
  | _ => B

def Pc.onto (p : Pc) (B : Book) : Book := p.home.direct B

def Pc.holdings (p : Pc) : Book := p.onto 0

theorem StopPc.holdings_add (p : StopPc) (A B : Book) : p.holdings (A + B) = p.holdings A + B := by
  cases p <;> simp only [StopPc.holdings, entered_add, Multiset.cons_add]

theorem Pc.direct_add (p : Pc) (A B : Book) : p.direct (A + B) = p.direct A + B := by
  cases p with
  | spawn p k => cases k <;> simp only [Pc.direct, SpawnCaller.holdings, Multiset.cons_add]
  | stop p => exact p.holdings_add A B
  | _ => simp only [Pc.direct, single_add, entered_add, Multiset.cons_add]

theorem Pc.onto_eq (p : Pc) (B : Book) : p.onto B = p.holdings + B := by
  have h := p.home.direct_add 0 B
  rwa [zero_add] at h

def stored (sh : Shared) : Book := Book.stored sh.globalQueue sh.finished

def book (sh : Shared) (ps : Multiset Pc) : Book := stored sh + ps.bind Pc.holdings

/-- The book law together with the representation of the FIFO: an entry found in
the queue owns its callbacks. `held` is what the actors hold. -/
structure Recorded (sh : Shared) (held : Book) : Prop where
  law : Law sh.acct sh.history sh.offered (stored sh + held)
  linked : ∀ j ∈ sh.globalQueue, (sh.jobs j).entry = some .queued

namespace Shared
variable (sh : Shared) (j : JobId)

theorem setJob_jobs_ne {k : JobId} (h : k ≠ j) (f : Job → Job) : (sh.setJob j f).jobs k = sh.jobs k :=
  Function.update_of_ne h _ _

@[simp] theorem setJob_jobs_self (f : Job → Job) : (sh.setJob j f).jobs j = f (sh.jobs j) :=
  Function.update_self j _ _

theorem setJob_history {f : Job → Job} {evs : List JobEvent}
    (h : (f (sh.jobs j)).history = (sh.jobs j).history ++ evs) :
    (sh.setJob j f).history = Function.update sh.history j (sh.history j ++ evs) := by
  funext k
  by_cases hk : k = j
  · subst hk
    simpa [Shared.history] using h
  · simp [Shared.history, setJob_jobs_ne sh j hk, hk]

theorem setJob_offered {f : Job → Job} (h : (f (sh.jobs j)).offered = (sh.jobs j).offered) :
    (sh.setJob j f).offered = sh.offered := by
  funext k
  by_cases hk : k = j
  · subst hk
    simpa [Shared.offered] using h
  · simp [Shared.offered, setJob_jobs_ne sh j hk]

theorem record_history (e : JobEvent) :
    (sh.record j e).history = Function.update sh.history j (sh.history j ++ [e]) :=
  sh.setJob_history j rfl

theorem record_offered (e : JobEvent) : (sh.record j e).offered = sh.offered := sh.setJob_offered j rfl

theorem lock_eq_some {s : Shared} (h : sh.lock = some s) :
    sh.locked = false ∧ s = { sh with locked := true } := by
  unfold lock at h
  split at h
  · cases h
  · rename_i hl
    exact ⟨by simpa using hl, (Option.some.inj h).symm⟩

end Shared

namespace Recorded
variable {sh sh' : Shared} {j : JobId} {ph ph' : Phase} {held : Book}

theorem cons_eq (e : JobId × Phase) (A B : Book) : A + e ::ₘ B = e ::ₘ (A + B) := Multiset.add_cons e A B

theorem entry (r : Recorded sh ((j, ph) ::ₘ held)) :
    Law sh.acct sh.history sh.offered ((j, ph) ::ₘ (stored sh + held)) := by
  have := r.law
  rwa [cons_eq] at this

theorem not_queued (r : Recorded sh ((j, ph) ::ₘ held)) : j ∉ sh.globalQueue := by
  intro hj
  have he : (j, Phase.queued) ∈ stored sh + held := Multiset.mem_add.mpr (Or.inl (Book.mem_stored hj))
  exact r.entry.not_mem_rest he rfl

theorem raise (r : Recorded sh ((j, ph) ::ₘ held)) {c : Counter} (hw : Phase.Raises c ph ph')
    (hh : ph'.history = ph.history) : Recorded (sh.raise c) ((j, ph') ::ₘ held) := by
  refine ⟨?_, r.linked⟩
  rw [cons_eq]
  exact r.entry.raise hw hh

theorem lower (r : Recorded sh ((j, ph) ::ₘ held)) {c : Counter} (hw : Phase.Raises c ph' ph)
    (hh : ph'.history = ph.history) :
    ∃ a, sh.acct.sub c = some a ∧ Recorded (sh.setAcct a) ((j, ph') ::ₘ held) := by
  have hh' : ph'.history = ph.history ++ [] := by simpa using hh
  obtain ⟨a, ha, hl⟩ := r.entry.lower hw hh'
  rw [List.append_nil, Function.update_eq_self] at hl
  refine ⟨a, ha, ?_, r.linked⟩
  rw [cons_eq]
  exact hl

/-- The last counter update of a job. -/
theorem settle (r : Recorded sh ((j, ph) ::ₘ held)) {c : Counter} (hw : Phase.Raises c ph' ph)
    (hh : ph'.history = ph.history ++ [JobEvent.accounted]) :
    ∃ a, sh.acct.sub c = some a ∧ Recorded ((sh.setAcct a).record j .accounted) ((j, ph') ::ₘ held) := by
  obtain ⟨a, ha, hl⟩ := r.entry.lower hw hh
  refine ⟨a, ha, ?_, fun i hi => ?_⟩
  · rw [cons_eq, Shared.record_history, Shared.record_offered]
    exact hl
  · have hij : i ≠ j := fun h => r.not_queued (h ▸ hi)
    rw [Shared.record, Shared.setJob_jobs_ne _ _ hij]
    exact r.linked i hi

theorem trace (r : Recorded sh ((j, ph) ::ₘ held)) (e : JobEvent)
    (hw : ∀ d, Phase.weight d ph' = Phase.weight d ph) (hh : ph'.history = ph.history ++ [e]) :
    Recorded (sh.record j e) ((j, ph') ::ₘ held) := by
  refine ⟨?_, fun i hi => ?_⟩
  · rw [cons_eq, Shared.record_history, Shared.record_offered]
    exact r.entry.trace hw hh
  · have hij : i ≠ j := fun h => r.not_queued (h ▸ hi)
    rw [Shared.record, Shared.setJob_jobs_ne _ _ hij]
    exact r.linked i hi

/-- A held job changes neither its weights nor its history. -/
theorem rephase (r : Recorded sh ((j, ph) ::ₘ held))
    (hw : ∀ d, Phase.weight d ph' = Phase.weight d ph) (hh : ph'.history = ph.history) :
    Recorded sh ((j, ph') ::ₘ held) := by
  have hh' : ph'.history = ph.history ++ [] := by simpa using hh
  have hl := r.entry.trace hw hh'
  rw [List.append_nil, Function.update_eq_self] at hl
  refine ⟨?_, r.linked⟩
  rw [cons_eq]
  exact hl

theorem change (r : Recorded sh held) {f : Job → Job} (hh : (f (sh.jobs j)).history = (sh.jobs j).history)
    (ho : (f (sh.jobs j)).offered = (sh.jobs j).offered) (hq : j ∉ sh.globalQueue) :
    Recorded (sh.setJob j f) held := by
  have hh' : (f (sh.jobs j)).history = (sh.jobs j).history ++ [] := by simpa using hh
  have hist := sh.setJob_history j hh'
  rw [List.append_nil, Function.update_eq_self] at hist
  refine ⟨?_, fun i hi => ?_⟩
  · rw [hist, sh.setJob_offered j ho]
    exact r.law
  · have hij : i ≠ j := fun h => hq (h ▸ hi)
    rw [Shared.setJob_jobs_ne _ _ hij]
    exact r.linked i hi

theorem setJob (r : Recorded sh ((j, ph) ::ₘ held)) {f : Job → Job}
    (hh : (f (sh.jobs j)).history = (sh.jobs j).history)
    (ho : (f (sh.jobs j)).offered = (sh.jobs j).offered) :
    Recorded (sh.setJob j f) ((j, ph) ::ₘ held) := r.change hh ho r.not_queued

theorem setEntry (r : Recorded sh ((j, ph) ::ₘ held)) (e : QueuedJobState) :
    Recorded (sh.setEntry j e) ((j, ph) ::ₘ held) := r.setJob rfl rfl

/-- A ticket may ask an accepting job to be cancelled without holding it. -/
theorem request (r : Recorded sh held) {owner : ThreadId} {b : Bool}
    (he : (sh.jobs j).entry = some (.accepting owner b)) :
    Recorded (sh.setEntry j (.accepting owner true)) held := by
  refine r.change rfl rfl fun hj => ?_
  rw [r.linked j hj] at he
  cases he

theorem finish {e : Ending} (r : Recorded sh ((j, e.phase) ::ₘ held)) : Recorded (sh.finish j e) held := by
  refine ⟨?_, r.linked⟩
  rw [show stored (sh.finish j e) + held = stored sh + (j, e.phase) ::ₘ held from Book.stored_finish]
  exact r.law

/-- The submitter pushes the entry of its published job. -/
theorem push (r : Recorded sh ((j, .queued) ::ₘ held)) :
    Recorded { sh.setEntry j .queued with globalQueue := sh.globalQueue ++ [j] } held := by
  have hr := r.setEntry .queued
  refine ⟨?_, fun i hi => ?_⟩
  · have hs : stored { sh.setEntry j .queued with globalQueue := sh.globalQueue ++ [j] } + held =
        stored (sh.setEntry j .queued) + (j, .queued) ::ₘ held := Book.stored_push
    rw [hs]
    exact hr.law
  · rcases List.mem_append.mp hi with hi | hi
    · exact hr.linked i hi
    · obtain rfl : i = j := by simpa using hi
      simp [Shared.setEntry]

/-- Whoever removes an entry from the FIFO finds its callbacks and owns them. -/
theorem remove (r : Recorded sh held) {q : List JobId} (hq : sh.globalQueue.Perm (j :: q)) :
    ({ sh with globalQueue := q }).takeQueued j = some (({ sh with globalQueue := q }).setEntry j .taken) ∧
      Recorded (({ sh with globalQueue := q }).setEntry j .taken) ((j, .queued) ::ₘ held) := by
  refine ⟨if_pos (r.linked j (hq.mem_iff.mpr List.mem_cons_self)), ?_⟩
  have hs : stored sh + held = stored { sh with globalQueue := q } + (j, .queued) ::ₘ held :=
    Book.stored_remove hq
  have hl := r.law
  rw [hs] at hl
  have hr : Recorded { sh with globalQueue := q } ((j, .queued) ::ₘ held) :=
    ⟨hl, fun i hi => r.linked i (hq.mem_iff.mpr (List.mem_cons_of_mem j hi))⟩
  exact hr.setEntry .taken

end Recorded

end ThreadPools.Dynamic
