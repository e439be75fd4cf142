import ThreadPools.Dynamic.Runs

/-! # The calls of the dynamic pool and what they do to the jobs -/
namespace ThreadPools.Dynamic
open Interleaving

inductive Call where
  | submit (j : JobId)
  | ticket (j : JobId)
  | prestart | worker | shutdown | stop | join | observe | setter
  deriving DecidableEq

def SpawnCaller.call : SpawnCaller → Call
  | .submit j => .submit j
  | .prestart => .prestart

def CancelCaller.call : CancelCaller → Call
  | .submitter j => .submit j
  | .ticket j => .ticket j
  | .stop _ _ _ => .stop

def Pc.directCall : Pc → Option Call
  | .submit j _ => some (.submit j)
  | .spawn _ k => some k.call
  | .prestart | .prestartUnlock | .prestarted _ => some .prestart
  | .worker _ => some .worker
  | .shutdown _ => some .shutdown
  | .stop _ => some .stop
  | .ticket j _ => some (.ticket j)
  | .cancel _ k => some k.call
  | .join _ => some .join
  | .observe _ => some .observe
  | .setter _ => some .setter
  | _ => none

def Pc.call (p : Pc) : Option Call := p.home.directCall

/-- One transfer of the callbacks of a job, or one move of its entry around it. -/
inductive EntryStep (sh : Shared) (j : JobId) : Pc → Option QueuedJobState → Option QueuedJobState → Prop where
  | begin {e : Option QueuedJobState} (ht : (sh.jobs j).ticketed = true) :
      EntryStep sh j (.submit j .beginAccept) e (some (.accepting (sh.jobs j).submitter false))
  | reject {e : Option QueuedJobState} (ht : (sh.jobs j).ticketed = true) :
      EntryStep sh j (.submit j .setRejected) e (some .rejected)
  | ask {caller owner : ThreadId} (ho : owner ≠ caller) :
      EntryStep sh j (.ticket j (.check caller)) (some (.accepting owner false)) (some (.accepting owner true))
  | honour {owner : ThreadId} :
      EntryStep sh j (.submit j .decideEntry) (some (.accepting owner true)) (some .cancelling)
  | publish {e : Option QueuedJobState} (he : ∀ owner, e ≠ some (.accepting owner true)) :
      EntryStep sh j (.submit j .decideEntry) e (some .queued)
  | take {p : Pc} (hq : j ∈ sh.globalQueue) : EntryStep sh j p (some .queued) (some .taken)
  | settle {e : Option QueuedJobState} :
      EntryStep sh j (.cancel .done (.submitter j)) e (some .cancelled)

structure Work (sh : Shared) (p : Pc) (sh' : Shared) (p' : Pc) : Prop where
  queue : ∀ j ∈ sh'.globalQueue, j ∈ sh.globalQueue ∨ p = .submit j .decideEntry
  history : sh'.history = sh.history ∨
    ∃ j e, sh'.history = Function.update sh.history j (sh.history j ++ [e])
  stopNow : sh.stopNow = true → sh'.stopNow = true
  fixed : ∀ j, (sh'.jobs j).ticketed = (sh.jobs j).ticketed ∧
    (sh'.jobs j).submitter = (sh.jobs j).submitter ∧ (sh'.jobs j).offered = (sh.jobs j).offered
  entry : ∀ j, (sh'.jobs j).entry = (sh.jobs j).entry ∨
    EntryStep sh j p (sh.jobs j).entry (sh'.jobs j).entry
  entryLocked : ∀ j, (sh'.jobs j).entryLocked = (sh.jobs j).entryLocked ∨
    p = .submit j .decideEntry ∨ p = .submit j .requestedUnlock
  caller : (∀ e, p' ≠ .panicked e) → p'.call = p.call

theorem Shared.setJob_same (sh : Shared) {i : JobId} {f : Job → Job} {α : Type} {g : Job → α}
    (h : g (f (sh.jobs i)) = g (sh.jobs i)) (j : JobId) : g ((sh.setJob i f).jobs j) = g (sh.jobs j) := by
  by_cases hj : j = i
  · subst hj
    rw [Shared.setJob_jobs_self, h]
  · rw [Shared.setJob_jobs_ne _ _ hj]

namespace Work
variable {sh sh' : Shared} {p p' : Pc} {j i : JobId} {f : Job → Job} {e : QueuedJobState}

/-- A step that neither moves a job in the queue nor touches one. -/
theorem of_same (hq : sh'.globalQueue = sh.globalQueue) (hj : sh'.jobs = sh.jobs)
    (hs : sh.stopNow = true → sh'.stopNow = true)
    (hp : (∀ e, p' ≠ .panicked e) → p'.call = p.call) : Work sh p sh' p' := by
  refine ⟨fun j hm => Or.inl (hq ▸ hm), Or.inl ?_, hs, fun j => ?_, fun j => Or.inl ?_, fun j => Or.inl ?_, hp⟩
  · exact congrArg (fun g : JobId → Job => fun k => (g k).history) hj
  · rw [hj]
    exact ⟨rfl, rfl, rfl⟩
  · rw [hj]
  · rw [hj]

theorem of_panic (e : Panic) : Work sh p sh (.panicked e) := of_same rfl rfl id fun hn => absurd rfl (hn e)

theorem of_job {evs : List JobEvent} (hj : sh'.jobs = (sh.setJob i f).jobs)
    (hh : (f (sh.jobs i)).history = (sh.jobs i).history ++ evs) (hl : evs.length ≤ 1)
    (hx : (f (sh.jobs i)).ticketed = (sh.jobs i).ticketed ∧
      (f (sh.jobs i)).submitter = (sh.jobs i).submitter ∧ (f (sh.jobs i)).offered = (sh.jobs i).offered)
    (he : (f (sh.jobs i)).entry = (sh.jobs i).entry ∨
      EntryStep sh i p (sh.jobs i).entry (f (sh.jobs i)).entry)
    (hk : (f (sh.jobs i)).entryLocked = (sh.jobs i).entryLocked ∨
      p = .submit i .decideEntry ∨ p = .submit i .requestedUnlock)
    (hq : ∀ j ∈ sh'.globalQueue, j ∈ sh.globalQueue ∨ p = .submit j .decideEntry)
    (hs : sh'.stopNow = sh.stopNow) (hp : (∀ e, p' ≠ .panicked e) → p'.call = p.call) : Work sh p sh' p' := by
  refine ⟨hq, ?_, fun h => hs.trans h, fun j => ?_, fun j => ?_, fun j => ?_, hp⟩
  · have hist := sh.setJob_history i hh
    have hsame : sh'.history = (sh.setJob i f).history :=
      congrArg (fun g : JobId → Job => fun k => (g k).history) hj
    rw [hsame, hist]
    match evs, hl with
    | [], _ =>
      rw [List.append_nil, Function.update_eq_self]
      exact Or.inl rfl
    | [e], _ => exact Or.inr ⟨i, e, rfl⟩
  · rw [hj]
    exact ⟨sh.setJob_same hx.1 j, sh.setJob_same hx.2.1 j, sh.setJob_same hx.2.2 j⟩
  · rw [hj]
    by_cases hji : j = i
    · subst hji
      rw [Shared.setJob_jobs_self]
      exact he
    · rw [Shared.setJob_jobs_ne _ _ hji]
      exact Or.inl rfl
  · rw [hj]
    by_cases hji : j = i
    · subst hji
      rw [Shared.setJob_jobs_self]
      exact hk
    · rw [Shared.setJob_jobs_ne _ _ hji]
      exact Or.inl rfl

theorem of_mark (f : Job → Job) (hj : sh'.jobs = (sh.setJob i f).jobs)
    (hx : (f (sh.jobs i)).history = (sh.jobs i).history ∧ (f (sh.jobs i)).ticketed = (sh.jobs i).ticketed ∧
      (f (sh.jobs i)).submitter = (sh.jobs i).submitter ∧ (f (sh.jobs i)).offered = (sh.jobs i).offered)
    (he : (f (sh.jobs i)).entry = (sh.jobs i).entry ∨
      EntryStep sh i p (sh.jobs i).entry (f (sh.jobs i)).entry)
    (hk : (f (sh.jobs i)).entryLocked = (sh.jobs i).entryLocked ∨
      p = .submit i .decideEntry ∨ p = .submit i .requestedUnlock)
    (hq : sh'.globalQueue = sh.globalQueue) (hs : sh'.stopNow = sh.stopNow)
    (hp : (∀ e, p' ≠ .panicked e) → p'.call = p.call) : Work sh p sh' p' :=
  of_job hj (hx.1.trans (List.append_nil _).symm) (Nat.zero_le 1) hx.2 he hk (fun _ hm => Or.inl (hq ▸ hm)) hs hp

theorem of_record (ev : JobEvent) (hj : sh'.jobs = (sh.record i ev).jobs)
    (hq : sh'.globalQueue = sh.globalQueue) (hs : sh'.stopNow = sh.stopNow)
    (hp : (∀ e, p' ≠ .panicked e) → p'.call = p.call) : Work sh p sh' p' :=
  of_job hj rfl (Nat.le_refl 1) ⟨rfl, rfl, rfl⟩ (Or.inl rfl) (Or.inl rfl) (fun _ hm => Or.inl (hq ▸ hm)) hs hp

theorem of_entry (hj : sh'.jobs = (sh.setEntry i e).jobs) (he : EntryStep sh i p (sh.jobs i).entry (some e))
    (hq : ∀ j ∈ sh'.globalQueue, j ∈ sh.globalQueue ∨ p = .submit j .decideEntry)
    (hs : sh'.stopNow = sh.stopNow)
    (hp : (∀ e, p' ≠ .panicked e) → p'.call = p.call) : Work sh p sh' p' :=
  of_job hj (List.append_nil _).symm (Nat.zero_le 1) ⟨rfl, rfl, rfl⟩ (Or.inr he) (Or.inl rfl) hq hs hp

theorem mem_history (w : Work sh p sh' p') {ev : JobEvent} (he : ev ∈ sh.history j) : ev ∈ sh'.history j := by
  rcases w.history with hh | ⟨i, f, hh⟩
  · rw [hh]
    exact he
  · rw [hh]
    by_cases hi : j = i
    · subst hi
      rw [Function.update_self]
      exact List.mem_append_left _ he
    · rwa [Function.update_of_ne hi]

theorem offered (w : Work sh p sh' p') : sh'.offered = sh.offered := by
  funext j
  exact (w.fixed j).2.2

end Work

open Work
variable {sh sh' : Shared} {p p' q : Pc} {ps rest : Multiset Pc} {c : Outcome} {j : JobId}

theorem entry_of_takeQueued {s : Shared} (h : sh.takeQueued j = some s) : (sh.jobs j).entry = some .queued := by
  unfold Shared.takeQueued at h
  split at h
  · assumption
  · cases h

/-- A property of control points that the shared functions return unchanged to their callers. -/
structure Steady {α : Type} (f : Pc → α) : Prop where
  observe : ∀ o b, f (.observe (.unlock o b)) = f (.observe .park)
  join : f (.join .subWaiter) = f (.join .park)
  spawn : ∀ k, f (.spawn .notify k) = f (.spawn .unlock k)
  unregister : f (.worker .unregisterNotify) = f (.worker .unregisterUnlock)
  exit : f (.worker .exitTerminated) = f (.worker .exitNotify)

namespace Steady
variable {α : Type} {f : Pc → α} (hf : Steady f)

theorem refuted (k : TermCaller) : f k.refuted.home = f k.home := by
  cases k with
  | observer o => cases o <;> rfl
  | _ => rfl

include hf

theorem confirmed (k : TermCaller) : f k.confirmed.home = f k.home := by
  cases k with
  | observer o => cases o <;> first | rfl | exact (hf.observe _ _).trans (hf.observe _ _).symm | exact hf.observe _ _
  | spawnFailed k => exact hf.spawn k
  | unregister => exact hf.unregister
  | exit => exact hf.exit
  | _ => rfl

theorem published (k : TermCaller) : f k.published.home = f k.home := by
  cases k with
  | observer o => cases o <;> first | exact (hf.observe _ _).trans (hf.observe _ _).symm | exact hf.observe _ _
  | _ => rfl

theorem decided (k : IdleCaller) (r : IdleRead) (b : Bool) : f (k.decided b).home = f (Pc.idle r k).home := by
  cases k with
  | term k =>
    cases b
    · exact refuted k
    · exact hf.confirmed k
  | join => cases b <;> first | rfl | exact hf.join
  | spawnFailed k => cases b <;> first | rfl | exact hf.spawn k
  | _ => cases b <;> rfl

theorem idleStep (sh : Shared) (r : IdleRead) (k : IdleCaller) :
    f (Dynamic.idleStep sh r k).home = f (Pc.idle r k).home := by
  unfold Dynamic.idleStep
  split
  · split
    · cases k <;> rfl
    · exact hf.decided k r true
  · exact hf.decided k r false

end Steady

def Pc.inShared : Pc → Bool
  | .notifyLock _ | .notifyAll _ | .term _ | .publish _ | .idle _ _ => true
  | _ => false

theorem Steady.step {α : Type} {f : Pc → α} (hf : Steady f) (hp : p.inShared = true)
    (h : Dynamic.step sh c p = some (sh', p')) : f p'.home = f p.home := by
  cases p with
  | notifyLock k =>
    obtain ⟨s, -, h⟩ := Option.map_eq_some_iff.mp h
    cases h
    rfl
  | notifyAll k =>
    cases h
    cases k <;> rfl
  | term k =>
    simp only [Dynamic.step] at h
    split at h <;> cases h
    · rfl
    · exact refuted k
  | publish k =>
    cases h
    exact hf.published k
  | idle r k =>
    cases h
    exact hf.idleStep sh r k
  | _ => cases hp

/-- A property of no control point to which a shared function returns. -/
structure Foreign {α : Type} (f : Pc → Option α) : Prop where
  discard : ∀ j e, f (.submit j (.discard e)) = none
  returned : ∀ j result, f (.submit j (.returned result)) = none
  worker : ∀ p, f (.worker p) = none
  cancel : ∀ k, f (.cancel .done k) = none
  shutdown : f (.shutdown .notifyAll) = none
  stop : ∀ jobs report, f (.stop (.notifyAll jobs report)) = none
  observe : ∀ p, f (.observe p) = none
  spawn : ∀ p k, f (.spawn p k) = none
  join : ∀ p, f (.join p) = none

namespace Foreign
variable {α : Type} {f : Pc → Option α} (hf : Foreign f)
include hf

theorem resume (k : NotifyCaller) : f k.resume = none := by
  cases k with
  | acceptFailed j => exact hf.discard j _
  | departed j result => exact hf.returned j result
  | finishedRunning => exact hf.worker _
  | finishedCancelled k => exact hf.cancel k

theorem term (k : TermCaller) : f k.home = none := by
  cases k with
  | notify k => exact hf.resume k
  | shutdown => exact hf.shutdown
  | stop jobs report => exact hf.stop jobs report
  | observer o => cases o <;> exact hf.observe _
  | spawnFailed k | spawnPublish k => exact hf.spawn _ k
  | _ => exact hf.worker _

theorem home (hp : p.inShared = true) : f p.home = none := by
  cases p with
  | notifyLock k | notifyAll k => exact hf.resume k
  | term k | publish k => exact hf.term k
  | idle r k =>
    cases k with
    | finishedRunning => exact hf.worker _
    | finishedCancelled k => exact hf.cancel k
    | join => exact hf.join _
    | spawnFailed k => exact hf.spawn _ k
    | term k => exact hf.term k
  | _ => cases hp

theorem step (hp : p.inShared = true) (h : Dynamic.step sh c p = some (sh', p')) : f p'.home = none := by
  have steady : Steady f := by
    refine ⟨fun o b => ?_, ?_, fun k => ?_, ?_, ?_⟩
    · rw [hf.observe, hf.observe]
    · rw [hf.join, hf.join]
    · rw [hf.spawn, hf.spawn]
    · rw [hf.worker, hf.worker]
    · rw [hf.worker, hf.worker]
  rw [steady.step hp h]
  exact hf.home hp

end Foreign

theorem steady_call : Steady Pc.directCall :=
  ⟨fun _ _ => rfl, rfl, fun _ => rfl, rfl, rfl⟩

theorem workerStep_work {p : WorkerPc} (h : workerStep sh c p = some (sh', p')) :
    Work sh (.worker p) sh' p' := by
  cases p with
  | takePop =>
    simp only [workerStep] at h
    split at h
    · cases h
      exact of_same rfl rfl id fun _ => rfl
    · rename_i i q hq
      have hsub : ∀ j ∈ q, j ∈ sh.globalQueue := fun j hj => by
        rw [hq]
        exact List.mem_cons_of_mem i hj
      split at h
      · rename_i s hs
        have he : (sh.jobs i).entry = some .queued := (entry_of_takeQueued hs :)
        obtain rfl := takeQueued_eq_some hs
        cases h
        refine of_entry rfl ?_ (fun j hj => Or.inl (hsub j hj)) rfl fun _ => rfl
        rw [he]
        exact .take (by rw [hq]; exact List.mem_cons_self)
      · cases h
        refine ⟨fun j hj => Or.inl (hsub j hj), Or.inl rfl, id, fun _ => ⟨rfl, rfl, rfl⟩, fun _ => Or.inl rfl,
          fun _ => Or.inl rfl, fun _ => rfl⟩
  | consume retire =>
    cases retire <;> cases h
    all_goals exact of_same rfl rfl id fun _ => rfl
  | exitLock =>
    obtain ⟨s, hs, h⟩ := Option.map_eq_some_iff.mp h
    obtain ⟨-, rfl⟩ := sh.lock_eq_some hs
    split at h <;> cases h
    · exact of_same rfl rfl id fun _ => rfl
    · exact of_same rfl rfl id fun hn => absurd rfl (hn _)
  | _ =>
    simp only [workerStep, Shared.lock, Shared.lockQueue, Shared.lower] at h
    repeat' split at h
    all_goals first | (simp only [Option.map_some] at h; (repeat' split at h) <;> cases h) | cases h
    all_goals first
      | exact of_panic _
      | exact of_same rfl rfl id fun _ => rfl
      | exact of_record _ rfl rfl rfl fun _ => rfl

theorem submitStep_work {i : JobId} {p : SubmitPc} (h : submitStep sh i c p = some (sh', p')) :
    Work sh (.submit i p) sh' p' := by
  cases p with
  | handoff =>
    cases h
    exact of_mark (fun job => { job with handoff := true }) rfl ⟨rfl, rfl, rfl, rfl⟩ (Or.inl rfl) (Or.inl rfl)
      rfl rfl fun _ => rfl
  | beginAccept =>
    simp only [submitStep] at h
    split at h <;> cases h
    · exact of_entry rfl (.begin ‹_›) (fun _ hm => Or.inl hm) rfl fun _ => rfl
    · exact of_same rfl rfl id fun _ => rfl
  | setRejected =>
    simp only [submitStep] at h
    split at h <;> cases h
    · exact of_entry rfl (.reject ‹_›) (fun _ hm => Or.inl hm) rfl fun _ => rfl
    · exact of_same rfl rfl id fun _ => rfl
  | decideEntry =>
    simp only [submitStep] at h
    split at h <;> cases h
    · rename_i owner he
      refine of_mark (fun job => { job with entry := some .cancelling, entryLocked := true }) rfl
        ⟨rfl, rfl, rfl, rfl⟩ (Or.inr ?_) (Or.inr (Or.inl rfl)) rfl rfl fun _ => rfl
      rw [he]
      exact .honour
    · rename_i he
      refine of_entry rfl (.publish he) (fun j hj => ?_) rfl fun _ => rfl
      refine (List.mem_append.mp hj).imp_right fun hj => ?_
      rw [List.mem_singleton.mp hj]
  | requestedUnlock =>
    cases h
    exact of_mark (fun job => { job with entryLocked := false }) rfl ⟨rfl, rfl, rfl, rfl⟩ (Or.inl rfl)
      (Or.inr (Or.inr rfl)) rfl rfl fun _ => rfl
  | _ =>
    simp only [submitStep, Shared.lock, Shared.lockQueue, Shared.withLock, Shared.lower] at h
    repeat' split at h
    all_goals cases h
    all_goals first
      | exact of_panic _
      | exact of_same rfl rfl id fun _ => rfl
      | exact of_record _ rfl rfl rfl fun _ => rfl

theorem stopStep_work {p : StopPc} (h : stopStep sh p = some (sh', p')) : Work sh (.stop p) sh' p' := by
  cases p with
  | storeStop =>
    cases h
    exact of_same rfl rfl (fun _ => rfl) fun _ => rfl
  | lockState =>
    obtain ⟨s, hs, h⟩ := Option.map_eq_some_iff.mp h
    obtain ⟨-, rfl⟩ := sh.lock_eq_some hs
    cases hl : sh.state.lifecycle <;> simp only [hl] at h <;> cases h
    all_goals exact of_same rfl rfl (fun _ => rfl) fun _ => rfl
  | drain running jobs =>
    simp only [stopStep] at h
    split at h
    · cases h
      exact of_same rfl rfl id fun _ => rfl
    · rename_i i q hq
      have hsub : ∀ j ∈ q, j ∈ sh.globalQueue := fun j hj => by
        rw [hq]
        exact List.mem_cons_of_mem i hj
      split at h
      · rename_i s hs
        have he : (sh.jobs i).entry = some .queued := (entry_of_takeQueued hs :)
        obtain rfl := takeQueued_eq_some hs
        cases h
        refine of_entry rfl ?_ (fun j hj => Or.inl (hsub j hj)) rfl fun _ => rfl
        rw [he]
        exact .take (by rw [hq]; exact List.mem_cons_self)
      · cases h
        refine ⟨fun j hj => Or.inl (hsub j hj), Or.inl rfl, id, fun _ => ⟨rfl, rfl, rfl⟩, fun _ => Or.inl rfl,
          fun _ => Or.inl rfl, fun _ => rfl⟩
  | next jobs report =>
    cases jobs <;> cases h
    all_goals exact of_same rfl rfl id fun _ => rfl
  | _ =>
    simp only [stopStep, Shared.lock, Shared.lockQueue, Shared.withLock, Shared.lower] at h
    repeat' split at h
    all_goals cases h
    all_goals first | exact of_panic _ | exact of_same rfl rfl id fun _ => rfl

theorem ticketStep_work {i : JobId} {p : TicketPc} (h : ticketStep sh i p = some (sh', p')) :
    Work sh (.ticket i p) sh' p' := by
  cases p with
  | check caller =>
    simp only [ticketStep] at h
    split at h
    · cases h
    · split at h
      · rename_i owner requested he
        split at h
        · cases h
          exact of_same rfl rfl id fun _ => rfl
        · rename_i hne
          cases h
          refine of_entry rfl ?_ (fun _ hm => Or.inl hm) rfl fun _ => rfl
          rw [not_or, Bool.not_eq_true] at hne
          rw [he, hne.2]
          exact .ask hne.1
      · cases h
        exact of_same rfl rfl id fun _ => rfl
      · cases h
        exact of_same rfl rfl id fun _ => rfl
  | remove =>
    simp only [ticketStep] at h
    split at h
    · rename_i hmem
      split at h
      · rename_i s hs
        have he : (sh.jobs i).entry = some .queued := (entry_of_takeQueued hs :)
        obtain rfl := takeQueued_eq_some hs
        cases h
        refine of_entry rfl ?_ (fun j hj => Or.inl (List.mem_of_mem_erase hj)) rfl fun _ => rfl
        rw [he]
        exact .take hmem
      · cases h
        exact of_same rfl rfl id fun _ => rfl
    · cases h
      exact of_same rfl rfl id fun _ => rfl
  | _ =>
    simp only [ticketStep, Shared.lockQueue, Shared.lower] at h
    repeat' split at h
    all_goals cases h
    all_goals first | exact of_panic _ | exact of_same rfl rfl id fun _ => rfl

theorem cancelStep_work {p : CancelPc} {k : CancelCaller} (h : cancelStep sh k p = some (sh', p')) :
    Work sh (.cancel p k) sh' p' := by
  cases p with
  | done =>
    cases k <;> cases h
    · exact of_entry rfl .settle (fun _ hm => Or.inl hm) rfl fun _ => rfl
    · exact of_same rfl rfl id fun _ => rfl
    · exact of_same rfl rfl id fun _ => rfl
  | _ =>
    simp only [cancelStep, Shared.lower] at h
    repeat' split at h
    all_goals cases h
    all_goals first
      | exact of_panic _
      | exact of_same rfl rfl id fun _ => rfl
      | exact of_record _ rfl rfl rfl fun _ => rfl

theorem step_work (h : step sh c p = some (sh', p')) : Work sh p sh' p' := by
  cases p with
  | submit i p => exact submitStep_work h
  | spawn p k =>
    cases p <;> cases k <;> simp only [step, spawnStep] at h
    all_goals repeat' split at h
    all_goals cases h
    all_goals first | exact of_panic _ | exact of_same rfl rfl id fun _ => rfl
  | prestart =>
    obtain ⟨s, hs, h⟩ := Option.map_eq_some_iff.mp h
    obtain ⟨-, rfl⟩ := sh.lock_eq_some hs
    repeat' split at h
    all_goals cases h
    all_goals exact of_same rfl rfl id fun _ => rfl
  | worker p => exact workerStep_work h
  | shutdown p =>
    cases p with
    | lockState =>
      obtain ⟨s, hs, h⟩ := Option.map_eq_some_iff.mp h
      obtain ⟨-, rfl⟩ := sh.lock_eq_some hs
      split at h <;> cases h
      all_goals exact of_same rfl rfl id fun _ => rfl
    | returned => cases h
    | _ =>
      cases h
      exact of_same rfl rfl id fun _ => rfl
  | stop p => exact stopStep_work h
  | ticket i p => exact ticketStep_work h
  | cancel p k => exact cancelStep_work h
  | join p =>
    cases p
    all_goals simp only [step, joinStep, Shared.lock] at h
    all_goals repeat' split at h
    all_goals cases h
    all_goals first | exact of_panic _ | exact of_same rfl rfl id fun _ => rfl
  | observe p =>
    cases p with
    | unlock o b =>
      cases o <;> cases h
      all_goals exact of_same rfl rfl id fun _ => rfl
    | lockState o =>
      obtain ⟨s, hs, h⟩ := Option.map_eq_some_iff.mp h
      obtain ⟨-, rfl⟩ := sh.lock_eq_some hs
      cases h
      cases o <;> exact of_same rfl rfl id fun _ => rfl
    | _ =>
      simp only [step, observeStep, Shared.lock] at h
      repeat' split at h
      all_goals cases h
      all_goals exact of_same rfl rfl id fun _ => rfl
  | setter p =>
    cases p
    all_goals simp only [step, setterStep, Shared.withLock] at h
    all_goals repeat' split at h
    all_goals cases h
    all_goals exact of_same rfl rfl id fun _ => rfl
  | notifyLock k =>
    obtain ⟨s, hs, h⟩ := Option.map_eq_some_iff.mp h
    obtain ⟨-, rfl⟩ := sh.lock_eq_some hs
    cases h
    exact of_same rfl rfl id fun _ => rfl
  | notifyAll k =>
    have hcall : p'.call = (Pc.notifyAll k).call := steady_call.step rfl h
    cases h
    exact of_same rfl rfl id fun _ => hcall
  | term k =>
    have hcall : p'.call = (Pc.term k).call := steady_call.step rfl h
    cases h
    exact of_same rfl rfl id fun _ => hcall
  | publish k =>
    have hcall : p'.call = (Pc.publish k).call := steady_call.step rfl h
    cases h
    exact of_same rfl rfl id fun _ => hcall
  | idle r k =>
    have hcall : p'.call = (Pc.idle r k).call := steady_call.step rfl h
    cases h
    exact of_same rfl rfl id fun _ => hcall
  | prestartUnlock =>
    cases h
    exact of_same rfl rfl id fun _ => rfl
  | prestarted _ => cases h
  | panicked _ => cases h

/-- The control points at which a worker goes on after a shared function. -/
def WorkerPc.resumed : WorkerPc → Bool
  | .takeLock | .unregisterNotify | .unregisterUnlock | .exitTerminated | .exitNotify => true
  | _ => false

def StopPc.resumed : StopPc → Bool
  | .notifyAll _ _ | .next _ _ => true
  | _ => false

def Pc.resumed : Pc → Bool
  | .worker q => q.resumed
  | .stop q => q.resumed
  | _ => true

theorem TermCaller.resumed (k : TermCaller) :
    k.refuted.resumed = true ∧ k.confirmed.resumed = true ∧ k.published.resumed = true := by
  cases k with
  | observer o => cases o <;> exact ⟨rfl, rfl, rfl⟩
  | _ => exact ⟨rfl, rfl, rfl⟩

theorem IdleCaller.resumed (k : IdleCaller) (b : Bool) : (k.decided b).resumed = true := by
  cases k with
  | term k =>
    cases b
    · exact k.resumed.1
    · exact k.resumed.2.1
  | _ => cases b <;> rfl

theorem shared_resumed (hp : p.inShared = true) (h : step sh c p = some (sh', p')) : p'.resumed = true := by
  cases p with
  | notifyLock k =>
    obtain ⟨s, -, h⟩ := Option.map_eq_some_iff.mp h
    cases h
    rfl
  | notifyAll k =>
    cases h
    cases k <;> rfl
  | term k =>
    simp only [step] at h
    split at h <;> cases h
    · rfl
    · exact k.resumed.1
  | publish k =>
    cases h
    exact k.resumed.2.2
  | idle r k =>
    cases h
    unfold idleStep
    repeat' split
    · rfl
    · exact k.resumed true
    · exact k.resumed false
  | _ => cases hp

/-- Outside the shared functions these callers are at control points of their own. -/
theorem Pc.own (hs : p.inShared ≠ true) : match p.call with
    | some .worker => ∃ q, p = .worker q
    | some .join => ∃ q, p = .join q
    | some .observe => ∃ q, p = .observe q
    | _ => True := by
  cases p with
  | worker q | join q | observe q => exact ⟨q, rfl⟩
  | cancel p k | spawn p k => cases k <;> trivial
  | notifyLock | notifyAll | term | publish | idle => exact absurd rfl hs
  | _ => trivial

/-- A worker comes to the other control points by a step of its own. -/
theorem worker_step {q : WorkerPc} (h : step sh c p = some (sh', .worker q)) (hq : q.resumed = false) :
    ∃ w, p = .worker w ∧ workerStep sh c w = some (sh', .worker q) := by
  have hown := Pc.own fun hs => Bool.false_ne_true (hq.symm.trans (shared_resumed hs h))
  rw [← (step_work h).caller (by rintro e ⟨⟩)] at hown
  obtain ⟨w, rfl⟩ := hown
  exact ⟨w, rfl, h⟩

theorem stop_step {q : StopPc} (h : step sh c p = some (sh', .stop q)) (hq : q.resumed = false) :
    ∃ s, p = .stop s ∧ stopStep sh s = some (sh', .stop q) := by
  have hcall := (step_work h).caller (by rintro e ⟨⟩)
  have hs : p.inShared ≠ true := fun hs => Bool.false_ne_true (hq.symm.trans (shared_resumed hs h))
  cases p with
  | stop s => exact ⟨s, rfl, h⟩
  | cancel p k =>
    cases p <;> cases k <;> simp only [step, cancelStep, Shared.lower] at h
    all_goals repeat' split at h
    all_goals cases h
    cases hq
  | spawn p k => cases k <;> cases hcall
  | notifyLock | notifyAll | term | publish | idle => exact absurd rfl hs
  | _ => cases hcall

def Pc.submits (j : JobId) (p : Pc) : ℕ := if p.call = some (.submit j) then 1 else 0

section
variable {config : ThreadPoolConfig} {tickets : JobId → Bool} {ok : Machine.Guard Shared Pc Outcome}
variable {t : State Shared Pc}

theorem one_submitter (h : machine.Run ok (init config tickets) t) (j : JobId) :
    total (Pc.submits j) t.actors = (t.shared.offered j).toNat := by
  refine invariant_along (J := fun sh ps => total (Pc.submits j) ps = (sh.offered j).toNat) .refl ?_ ?_ h rfl
  · intro sh p rest c sh' p' inv hk _ hm
    have w := step_work hm
    have hnew : total (Pc.submits j) (↑(spawned p c) : Multiset Pc) = 0 := by
      refine total_eq_zero_iff.mpr fun q hq => ?_
      rw [Consistent.spawned_fresh (Multiset.mem_coe.mp hq)]
      rfl
    rw [w.offered, ← hk, total_cons, total_cons, total_add, hnew, Nat.zero_add, Pc.submits,
      w.caller (inv.sound_step hm), ← Pc.submits]
  · intro sh ps op sh' p _ hk hm
    cases op with
    | submit i caller =>
      simp only [invoke] at hm
      split at hm <;> cases hm
      by_cases hij : i = j
      · subst hij
        have hz : sh.offered i = false := Bool.eq_false_iff.mpr ‹_›
        rw [hz] at hk
        rw [total_cons, hk]
        simp [Pc.submits, Pc.call, Pc.home, Pc.directCall, Shared.offered]
      · rw [total_cons, hk]
        simp [Pc.submits, Pc.call, Pc.home, Pc.directCall, Shared.offered, hij,
          Shared.setJob_jobs_ne _ _ (Ne.symm hij)]
    | cancelQueued i caller =>
      simp only [invoke] at hm
      split at hm <;> cases hm
      rw [total_cons, hk]
      exact Nat.zero_add _
    | _ =>
      cases hm
      rw [total_cons, hk]
      exact Nat.zero_add _

/-- A consistent state in which every job that was handed over has exactly one submitting call. -/
structure Attended (sh : Shared) (ps : Multiset Pc) : Prop where
  consistent : Consistent False False sh ps
  submitters : ∀ j, total (Pc.submits j) ps = (sh.offered j).toNat

theorem Attended.of_run (h : machine.Run ok (init config tickets) t) : Attended t.shared t.actors :=
  ⟨Consistent.of_free_run h.free, one_submitter h⟩

theorem Attended.other (att : Attended sh (p ::ₘ rest)) (hq : q ∈ rest) (hqj : q.call = some (.submit j)) :
    p.call ≠ some (.submit j) := by
  intro hpj
  have hone := att.submitters j
  have hle := le_total (f := Pc.submits j) hq
  have hmax := Bool.toNat_le (sh.offered j)
  rw [total_cons] at hone
  simp only [Pc.submits, hpj, hqj, if_true] at hone hle
  omega

theorem submitter_unique (h : machine.Run ok (init config tickets) t) {p q : Pc} (hp : p ∈ t.actors)
    (hq : q ∈ t.actors) (hpj : p.call = some (.submit j)) (hqj : q.call = some (.submit j)) : p = q := by
  by_contra hne
  obtain ⟨rest, hrest⟩ := Multiset.exists_cons_of_mem (Multiset.mem_coe.mpr hp)
  have hq' : q ∈ rest := by
    rcases Multiset.mem_cons.mp (hrest ▸ Multiset.mem_coe.mpr hq) with he | hm
    · exact absurd he.symm hne
    · exact hm
  have att := Attended.of_run h
  rw [hrest] at att
  exact att.other hq' hqj hpj

end

end ThreadPools.Dynamic
