import ThreadPools.Dynamic.Queue
import ThreadPools.Dynamic.BookSteps
import ThreadPools.Dynamic.Policy

/-! # Queue slots of the dynamic pool

A step changes the phase of at most one job. A job obtains its slot either from the
bounded counter, which then stays within the capacity, or together with a new worker,
which marks the job; so the marked jobs account for any excess.
-/
namespace ThreadPools.Dynamic
open Interleaving

variable {sh sh' : Shared} {p p' q : Pc} {ps rest : Multiset Pc} {c : Outcome} {j : JobId} {A A' B : Book}

/-- Two books that differ in the phase of at most one job. -/
inductive Exchanged (A A' : Book) : Prop where
  | same (h : A' = A)
  | moved {j : JobId} {ph ph' : Phase} {B : Book} (h : A = (j, ph) ::ₘ B) (h' : A' = (j, ph') ::ₘ B)

namespace Exchanged

theorem of_same (hs : stored sh' = stored sh) (hp : p'.holdings = p.holdings) :
    Exchanged (stored sh + p.holdings) (stored sh' + p'.holdings) := .same (by rw [hs, hp])

theorem of_moved (j : JobId) (ph ph' : Phase) (B : Book) (hs : stored sh' = stored sh)
    (hp : p.holdings = (j, ph) ::ₘ B) (hp' : p'.holdings = (j, ph') ::ₘ B) :
    Exchanged (stored sh + p.holdings) (stored sh' + p'.holdings) := by
  have h : stored sh + p.holdings = (j, ph) ::ₘ (stored sh + B) := by rw [hp, Multiset.add_cons]
  have h' : stored sh' + p'.holdings = (j, ph') ::ₘ (stored sh + B) := by rw [hp', hs, Multiset.add_cons]
  exact .moved h h'

/-- An entry leaves the queue and its job comes into the hands of the actor. -/
theorem of_remove {queue : List JobId} (hq : sh.globalQueue.Perm (j :: queue))
    (hp : p'.holdings = (j, .queued) ::ₘ p.holdings) : Exchanged (stored sh + p.holdings)
      (stored (({ sh with globalQueue := queue }).setEntry j .taken) + p'.holdings) := by
  refine .same ?_
  rw [hp]
  exact (Book.stored_remove hq).symm

theorem of_finish {ph : Phase} {e : Ending} {s : Shared} (hs : stored s = stored sh) (hp : p.holdings = (j, ph) ::ₘ B)
    (hp' : p'.holdings = B) : Exchanged (stored sh + p.holdings) (stored (s.finish j e) + p'.holdings) := by
  have hold : stored sh + p.holdings = (j, ph) ::ₘ (stored sh + B) := by rw [hp, Multiset.add_cons]
  have hnew : stored (s.finish j e) + p'.holdings = (j, e.phase) ::ₘ (stored sh + B) := by
    rw [hp', ← hs, ← Multiset.add_cons]
    exact Book.stored_finish
  exact .moved hold hnew

theorem of_submit {q q' : SubmitPc} {ph ph' : Phase} (hs : stored sh' = stored sh) (hq : q.phase = some ph)
    (hq' : q'.phase = some ph') :
    Exchanged (stored sh + (Pc.submit j q).holdings) (stored sh' + (Pc.submit j q').holdings) := by
  refine of_moved j ph ph' 0 hs ?_ ?_
  · simp only [Pc.holdings, Pc.onto, Pc.home, Pc.direct, hq, Option.map_some, Book.single]
  · simp only [Pc.holdings, Pc.onto, Pc.home, Pc.direct, hq', Option.map_some, Book.single]

theorem of_worker {q q' : WorkerPc} {ph ph' : Phase} (hs : stored sh' = stored sh) (hq : q.held = some (j, ph))
    (hq' : q'.held = some (j, ph')) :
    Exchanged (stored sh + (Pc.worker q).holdings) (stored sh' + (Pc.worker q').holdings) := by
  refine of_moved j ph ph' 0 hs ?_ ?_
  · simp only [Pc.holdings, Pc.onto, Pc.home, Pc.direct, hq, Book.single]
  · simp only [Pc.holdings, Pc.onto, Pc.home, Pc.direct, hq', Book.single]

theorem of_ticket {q q' : TicketPc} {ph ph' : Phase} (hs : stored sh' = stored sh) (hq : q.phase = some ph)
    (hq' : q'.phase = some ph') :
    Exchanged (stored sh + (Pc.ticket j q).holdings) (stored sh' + (Pc.ticket j q').holdings) := by
  refine of_moved j ph ph' 0 hs ?_ ?_
  · simp only [Pc.holdings, Pc.onto, Pc.home, Pc.direct, hq, Option.map_some, Book.single]
  · simp only [Pc.holdings, Pc.onto, Pc.home, Pc.direct, hq', Option.map_some, Book.single]

theorem of_cancel {q q' : CancelPc} {k : CancelCaller} (hs : stored sh' = stored sh) :
    Exchanged (stored sh + (Pc.cancel q k).holdings) (stored sh' + (Pc.cancel q' k).holdings) :=
  of_moved k.job q.phase q'.phase _ hs rfl rfl

theorem add (h : Exchanged A A') (C : Book) : Exchanged (A + C) (A' + C) := by
  cases h with
  | same h => exact .same (by rw [h])
  | moved h h' => exact .moved (by rw [h, Multiset.cons_add]) (by rw [h', Multiset.cons_add])

end Exchanged

open Exchanged

theorem submitStep_exchanged {p : SubmitPc} (h : submitStep sh j c p = some (sh', p')) (hn : ∀ e, p' ≠ .panicked e) :
    Exchanged (stored sh + (Pc.submit j p).holdings) (stored sh' + p'.holdings) := by
  cases p with
  | decideEntry =>
    simp only [submitStep] at h
    split at h <;> cases h
    · exact of_same rfl rfl
    · exact .same Book.stored_push
  | leave result =>
    simp only [submitStep] at h
    split at h
    · rename_i a last _
      cases h
      cases last <;> exact of_same rfl rfl
    · cases h
      exact absurd rfl (hn _)
  | _ =>
    simp only [submitStep, Shared.lock, Shared.lockQueue, Shared.withLock, Shared.lower] at h
    repeat' split at h
    all_goals cases h
    all_goals first
      | exact absurd rfl (hn _)
      | exact of_same rfl rfl
      | exact of_submit rfl rfl rfl

theorem workerStep_exchanged {p : WorkerPc} (hl : ∀ j ∈ sh.globalQueue, (sh.jobs j).entry = some .queued)
    (h : workerStep sh c p = some (sh', p')) (hn : ∀ e, p' ≠ .panicked e) :
    Exchanged (stored sh + (Pc.worker p).holdings) (stored sh' + p'.holdings) := by
  cases p with
  | takePop =>
    simp only [workerStep] at h
    split at h
    · cases h
      exact of_same rfl rfl
    · rename_i j rest hq
      rw [takeQueued_linked hl (hq ▸ List.mem_cons_self) rest] at h
      cases h
      exact of_remove (List.Perm.of_eq hq) rfl
  | finishRunning j =>
    simp only [workerStep, Shared.lower] at h
    split at h <;> cases h
    · exact of_finish rfl rfl rfl
    · exact absurd rfl (hn _)
  | _ =>
    simp only [workerStep, Shared.lock, Shared.lockQueue, Shared.lower] at h
    repeat' split at h
    all_goals first | (simp only [Option.map_some] at h; (repeat' split at h) <;> cases h) | cases h
    all_goals first
      | exact absurd rfl (hn _)
      | exact of_same rfl rfl
      | exact of_worker rfl rfl rfl

theorem stopStep_exchanged {p : StopPc} (hl : ∀ j ∈ sh.globalQueue, (sh.jobs j).entry = some .queued)
    (h : stopStep sh p = some (sh', p')) (hn : ∀ e, p' ≠ .panicked e) :
    Exchanged (stored sh + (Pc.stop p).holdings) (stored sh' + p'.holdings) := by
  cases p with
  | drain running jobs =>
    simp only [stopStep] at h
    split at h
    · cases h
      exact of_same rfl rfl
    · rename_i j rest hq
      rw [takeQueued_linked hl (hq ▸ List.mem_cons_self) rest] at h
      cases h
      exact of_remove (List.Perm.of_eq hq) rfl
  | drainWithdraw running jobs j =>
    simp only [stopStep, Shared.lower] at h
    split at h <;> cases h
    · exact of_moved j .queued .withdrawing _ rfl rfl rfl
    · exact absurd rfl (hn _)
  | drainCancelling running jobs j =>
    cases h
    exact of_moved j .withdrawing .withdrawn (Book.entered .withdrawn jobs 0) rfl rfl (Book.entered_append _ _ _ _)
  | next jobs report =>
    cases jobs <;> cases h
    all_goals exact of_same rfl rfl
  | lockState =>
    obtain ⟨s, hs, h⟩ := Option.map_eq_some_iff.mp h
    obtain ⟨-, rfl⟩ := sh.lock_eq_some hs
    cases hlife : sh.state.lifecycle <;> simp only [hlife] at h <;> cases h
    all_goals exact of_same rfl rfl
  | _ =>
    simp only [stopStep, Shared.lock, Shared.lockQueue, Shared.withLock] at h
    repeat' split at h
    all_goals cases h
    all_goals first | exact absurd rfl (hn _) | exact of_same rfl rfl

theorem ticketStep_exchanged {p : TicketPc} (hl : ∀ j ∈ sh.globalQueue, (sh.jobs j).entry = some .queued)
    (h : ticketStep sh j p = some (sh', p')) (hn : ∀ e, p' ≠ .panicked e) :
    Exchanged (stored sh + (Pc.ticket j p).holdings) (stored sh' + p'.holdings) := by
  cases p with
  | remove =>
    simp only [ticketStep] at h
    split at h
    · rename_i hm
      rw [takeQueued_linked hl hm] at h
      cases h
      exact of_remove (List.perm_cons_erase hm) rfl
    · cases h
      exact of_same rfl rfl
  | _ =>
    simp only [ticketStep, Shared.lockQueue, Shared.lower] at h
    repeat' split at h
    all_goals cases h
    all_goals first
      | exact absurd rfl (hn _)
      | exact of_same rfl rfl
      | exact of_ticket rfl rfl rfl

theorem cancelStep_exchanged {p : CancelPc} {k : CancelCaller} (h : cancelStep sh k p = some (sh', p'))
    (hn : ∀ e, p' ≠ .panicked e) : Exchanged (stored sh + (Pc.cancel p k).holdings) (stored sh' + p'.holdings) := by
  cases p with
  | done =>
    cases k <;> cases h
    all_goals exact .same Book.stored_finish
  | notifyCapacity =>
    cases h
    exact of_same rfl rfl
  | _ =>
    simp only [cancelStep, Shared.lower] at h
    repeat' split at h
    all_goals cases h
    all_goals first | exact absurd rfl (hn _) | exact of_cancel rfl

theorem step_exchanged (hl : ∀ j ∈ sh.globalQueue, (sh.jobs j).entry = some .queued)
    (h : step sh c p = some (sh', p')) (hn : ∀ e, p' ≠ .panicked e) :
    Exchanged (stored sh + p.holdings) (stored sh' + p'.holdings) := by
  cases p with
  | submit j p => exact submitStep_exchanged h hn
  | worker p => exact workerStep_exchanged hl h hn
  | stop p => exact stopStep_exchanged hl h hn
  | ticket j p => exact ticketStep_exchanged hl h hn
  | cancel p k => exact cancelStep_exchanged h hn
  | spawn p k =>
    cases p <;> cases k <;> simp only [step, spawnStep] at h
    all_goals repeat' split at h
    all_goals cases h
    all_goals first
      | exact absurd rfl (hn _)
      | exact of_same rfl rfl
      | exact of_moved _ .offered (.rejected (.rejected .workerSpawnFailed)) 0 rfl rfl rfl
  | prestart =>
    obtain ⟨s, hs, h⟩ := Option.map_eq_some_iff.mp h
    obtain ⟨-, rfl⟩ := sh.lock_eq_some hs
    repeat' split at h
    all_goals cases h
    all_goals exact of_same rfl rfl
  | shutdown p =>
    cases p with
    | lockState =>
      obtain ⟨s, hs, h⟩ := Option.map_eq_some_iff.mp h
      obtain ⟨-, rfl⟩ := sh.lock_eq_some hs
      split at h <;> cases h
      all_goals exact of_same rfl rfl
    | _ =>
      cases h
      all_goals exact of_same rfl rfl
  | join p =>
    cases p
    all_goals simp only [step, joinStep, Shared.lock] at h
    all_goals repeat' split at h
    all_goals cases h
    all_goals first | exact absurd rfl (hn _) | exact of_same rfl rfl
  | observe p =>
    cases p with
    | unlock o b =>
      cases o <;> cases h
      all_goals exact of_same rfl rfl
    | lockState o =>
      obtain ⟨s, hs, h⟩ := Option.map_eq_some_iff.mp h
      obtain ⟨-, rfl⟩ := sh.lock_eq_some hs
      cases h
      cases o <;> exact of_same rfl rfl
    | _ =>
      simp only [step, observeStep, Shared.lock] at h
      repeat' split at h
      all_goals cases h
      all_goals exact of_same rfl rfl
  | setter p =>
    cases p
    all_goals simp only [step, setterStep, Shared.withLock] at h
    all_goals repeat' split at h
    all_goals cases h
    all_goals exact of_same rfl rfl
  | prestartUnlock =>
    cases h
    exact of_same rfl rfl
  | notifyLock k =>
    obtain ⟨s, hs, h⟩ := Option.map_eq_some_iff.mp h
    obtain ⟨-, rfl⟩ := sh.lock_eq_some hs
    cases h
    exact of_same rfl rfl
  | notifyAll k =>
    cases h
    exact of_same rfl k.resume_onto
  | term k =>
    cases h
    split
    · exact of_same rfl rfl
    · exact of_same rfl k.refuted_onto
  | publish k =>
    cases h
    exact of_same rfl k.published_onto
  | idle r k =>
    cases h
    exact of_same rfl (idleStep_onto sh r k)
  | prestarted _ => cases h
  | panicked _ => cases h

theorem setEntry_handoff (sh : Shared) (i : JobId) (e : QueuedJobState) (j : JobId) :
    ((sh.setEntry i e).jobs j).handoff = (sh.jobs j).handoff := sh.setJob_same rfl j

theorem record_handoff (sh : Shared) (i : JobId) (e : JobEvent) (j : JobId) :
    ((sh.record i e).jobs j).handoff = (sh.jobs j).handoff := sh.setJob_same rfl j

theorem submitStep_handoff {i : JobId} {p : SubmitPc} (h : submitStep sh i c p = some (sh', p')) (j : JobId) :
    (sh'.jobs j).handoff = (sh.jobs j).handoff ∨ Pc.submit i p = .submit j .handoff := by
  cases p with
  | handoff =>
    cases h
    by_cases hi : j = i
    · exact .inr (by rw [hi])
    · exact .inl (congrArg Job.handoff (Shared.setJob_jobs_ne _ _ hi _))
  | decideEntry =>
    left
    simp only [submitStep] at h
    split at h <;> cases h
    · exact sh.setJob_same (i := i) (g := Job.handoff)
        (f := fun job => { job with entry := some .cancelling, entryLocked := true }) rfl j
    · exact setEntry_handoff _ _ _ j
  | requestedUnlock =>
    cases h
    exact .inl (sh.setJob_same (i := i) (g := Job.handoff) (f := fun job => { job with entryLocked := false }) rfl j)
  | _ =>
    left
    simp only [submitStep, Shared.lock, Shared.lockQueue, Shared.withLock, Shared.lower] at h
    repeat' split at h
    all_goals cases h
    all_goals first | rfl | exact setEntry_handoff _ _ _ j | exact record_handoff _ _ _ j

section
variable (hl : ∀ j ∈ sh.globalQueue, (sh.jobs j).entry = some .queued)
include hl

theorem workerStep_handoff {p : WorkerPc} (h : workerStep sh c p = some (sh', p')) (j : JobId) :
    (sh'.jobs j).handoff = (sh.jobs j).handoff := by
  cases p with
  | takePop =>
    simp only [workerStep] at h
    split at h
    · cases h
      rfl
    · rename_i i rest hq
      rw [takeQueued_linked hl (hq ▸ List.mem_cons_self) rest] at h
      cases h
      exact setEntry_handoff _ _ _ j
  | _ =>
    simp only [workerStep, Shared.lock, Shared.lockQueue, Shared.lower] at h
    repeat' split at h
    all_goals first | (simp only [Option.map_some] at h; (repeat' split at h) <;> cases h) | cases h
    all_goals first | rfl | exact setEntry_handoff _ _ _ j | exact record_handoff _ _ _ j

theorem stopStep_handoff {p : StopPc} (h : stopStep sh p = some (sh', p')) (j : JobId) :
    (sh'.jobs j).handoff = (sh.jobs j).handoff := by
  cases p with
  | drain running jobs =>
    simp only [stopStep] at h
    split at h
    · cases h
      rfl
    · rename_i i rest hq
      rw [takeQueued_linked hl (hq ▸ List.mem_cons_self) rest] at h
      cases h
      exact setEntry_handoff _ _ _ j
  | next jobs report =>
    cases jobs <;> cases h
    all_goals rfl
  | lockState =>
    obtain ⟨s, hs, h⟩ := Option.map_eq_some_iff.mp h
    obtain ⟨-, rfl⟩ := sh.lock_eq_some hs
    cases hlife : sh.state.lifecycle <;> simp only [hlife] at h <;> cases h
    all_goals rfl
  | _ =>
    simp only [stopStep, Shared.lock, Shared.lockQueue, Shared.withLock, Shared.lower] at h
    repeat' split at h
    all_goals cases h
    all_goals rfl

theorem ticketStep_handoff {i : JobId} {p : TicketPc} (h : ticketStep sh i p = some (sh', p')) (j : JobId) :
    (sh'.jobs j).handoff = (sh.jobs j).handoff := by
  cases p with
  | remove =>
    simp only [ticketStep] at h
    split at h
    · rename_i hm
      rw [takeQueued_linked hl hm] at h
      cases h
      exact setEntry_handoff _ _ _ j
    · cases h
      rfl
  | _ =>
    simp only [ticketStep, Shared.lockQueue, Shared.lower] at h
    repeat' split at h
    all_goals cases h
    all_goals first | rfl | exact setEntry_handoff _ _ _ j

end

theorem cancelStep_handoff {p : CancelPc} {k : CancelCaller} (h : cancelStep sh k p = some (sh', p')) (j : JobId) :
    (sh'.jobs j).handoff = (sh.jobs j).handoff := by
  cases p <;> cases k <;> simp only [cancelStep, Shared.lower] at h
  all_goals repeat' split at h
  all_goals cases h
  all_goals first | rfl | exact setEntry_handoff _ _ _ j | exact record_handoff _ _ _ j

/-- The calls on the pool as a whole and the start of a worker. -/
def Pc.onPool : Pc → Bool
  | .spawn _ _ | .prestart | .prestartUnlock | .prestarted _ | .shutdown _ | .join _ | .observe _ | .setter _ => true
  | _ => false

theorem onPool_jobs (hp : p.onPool = true) (h : step sh c p = some (sh', p')) : sh'.jobs = sh.jobs := by
  cases p with
  | spawn p k =>
    cases p <;> cases k <;> simp only [step, spawnStep] at h
    all_goals repeat' split at h
    all_goals cases h
    all_goals rfl
  | prestart =>
    obtain ⟨s, hs, h⟩ := Option.map_eq_some_iff.mp h
    obtain ⟨-, rfl⟩ := sh.lock_eq_some hs
    repeat' split at h
    all_goals cases h
    all_goals rfl
  | prestartUnlock =>
    cases h
    rfl
  | prestarted _ => cases h
  | shutdown p =>
    cases p with
    | lockState =>
      obtain ⟨s, hs, h⟩ := Option.map_eq_some_iff.mp h
      obtain ⟨-, rfl⟩ := sh.lock_eq_some hs
      split at h <;> cases h
      all_goals rfl
    | _ =>
      cases h
      all_goals rfl
  | join p =>
    cases p
    all_goals simp only [step, joinStep, Shared.lock] at h
    all_goals repeat' split at h
    all_goals cases h
    all_goals rfl
  | observe p =>
    cases p with
    | unlock o b =>
      cases o <;> cases h
      all_goals rfl
    | _ =>
      simp only [step, observeStep, Shared.lock] at h
      repeat' split at h
      all_goals cases h
      all_goals rfl
  | setter p =>
    cases p
    all_goals simp only [step, setterStep, Shared.withLock] at h
    all_goals repeat' split at h
    all_goals cases h
    all_goals rfl
  | _ => cases hp

/-- Only the reservation together with a worker marks a job. -/
theorem step_handoff (hl : ∀ j ∈ sh.globalQueue, (sh.jobs j).entry = some .queued)
    (h : step sh c p = some (sh', p')) (j : JobId) :
    (sh'.jobs j).handoff = (sh.jobs j).handoff ∨ p = .submit j .handoff := by
  by_cases hsh : p.inShared = true
  · exact .inl (by rw [(shared_same hsh h).1])
  cases p with
  | submit i p => exact submitStep_handoff h j
  | worker p => exact .inl (workerStep_handoff hl h j)
  | stop p => exact .inl (stopStep_handoff hl h j)
  | ticket i p => exact .inl (ticketStep_handoff hl h j)
  | cancel p k => exact .inl (cancelStep_handoff h j)
  | notifyLock _ | notifyAll _ | term _ | publish _ | idle _ _ => exact absurd rfl hsh
  | panicked _ => cases h
  | _ => exact .inl (by rw [onPool_jobs rfl h])

def slots (mark : JobId → Bool) (B : Book) : ℕ := total (fun e => if mark e.1 then Phase.weight .queueSlot e.2 else 0) B

theorem slots_cons (mark : JobId → Bool) (j : JobId) (ph : Phase) (B : Book) :
    slots mark ((j, ph) ::ₘ B) = (if mark j then Phase.weight .queueSlot ph else 0) + slots mark B := total_cons _ _ _

theorem slots_le {mark mark' : JobId → Bool} (h : ∀ j, mark' j = true → mark j = true) (B : Book) :
    slots mark' B ≤ slots mark B := by
  refine total_le_total fun e _ => ?_
  by_cases hm : mark' e.1 = true
  · rw [if_pos hm, if_pos (h _ hm)]
  · rw [if_neg hm]
    exact Nat.zero_le _

theorem slots_le_sum (mark : JobId → Bool) (B : Book) : slots mark B ≤ Book.sum .queueSlot B := by
  refine total_le_total fun e _ => ?_
  split
  · exact Nat.le_refl _
  · exact Nat.zero_le _

/-- One job is marked and nobody loses a mark. -/
theorem slots_marked {mark mark' : JobId → Bool} {ph ph' : Phase} (h : ∀ i, mark' i = true → mark i = true)
    (hj : mark' j = false) : slots mark' ((j, ph') ::ₘ B) ≤ slots mark ((j, ph) ::ₘ B) := by
  have hle := slots_le h B
  rw [slots_cons, slots_cons, hj, if_neg Bool.false_ne_true]
  omega

def Shared.bounded (sh : Shared) (j : JobId) : Bool := !(sh.jobs j).handoff

/-- Among the ways to a slot only the one together with a worker ignores the capacity. -/
theorem reserve_room (h : step sh c p = some (sh', p')) (hp : ∀ j, p ≠ .submit j .handoff) :
    sh'.acct.count .queueSlot ≤ sh.acct.count .queueSlot ∨
      ∀ capacity, sh.acct.queueCapacity = some capacity → sh'.acct.count .queueSlot ≤ capacity := by
  rcases (step_effect h).count .queueSlot with hle | hr
  · exact .inl hle
  unfold Pc.raises at hr
  split at hr
  case h_1 j =>
    simp only [step, submitStep] at h
    split at h
    · rename_i ha
      cases h
      exact .inr fun capacity hc => PoolAccounting.tryReserveBoundedSlot_le ha hc
    · split at h <;> cases h
      all_goals exact .inl (Nat.le_refl _)
  case h_2 j => exact absurd rfl (hp j)
  all_goals cases hr

def WithinCapacity (sh : Shared) (ps : Multiset Pc) : Prop :=
  ∀ capacity, sh.acct.queueCapacity = some capacity → slots sh.bounded (book sh ps) ≤ capacity

theorem Exchanged.slots_le {mark : JobId → Bool} (h : Exchanged A A')
    (hs : Book.sum .queueSlot A' ≤ Book.sum .queueSlot A) : slots mark A' ≤ slots mark A := by
  cases h with
  | same h => rw [h]
  | moved h h' =>
    rw [h, h', Book.sum, Book.sum, total_cons, total_cons] at hs
    simp only at hs
    rw [h, h', slots_cons, slots_cons]
    split <;> omega

theorem book_cons (sh : Shared) (p : Pc) (rest : Multiset Pc) :
    book sh (p ::ₘ rest) = stored sh + p.holdings + rest.bind Pc.holdings := by
  rw [book, Multiset.cons_bind, add_assoc]

theorem book_spawned (sh : Shared) (p p' : Pc) (c : Outcome) (rest : Multiset Pc) :
    book sh (p' ::ₘ (↑(spawned p c) + rest)) = stored sh + p'.holdings + rest.bind Pc.holdings := by
  have hnone : (↑(spawned p c) : Multiset Pc).bind Pc.holdings = 0 := by
    refine (Multiset.bind_congr (g := fun _ => 0) fun q hq => ?_).trans (Multiset.bind_zero _)
    rw [Consistent.spawned_fresh (Multiset.mem_coe.mp hq)]
    rfl
  rw [book, Multiset.cons_bind, Multiset.add_bind, hnone, zero_add, add_assoc]

theorem WithinCapacity.step (hw : WithinCapacity sh (p ::ₘ rest)) (inv : Consistent False False sh (p ::ₘ rest))
    (hc : sh'.acct.queueCapacity = sh.acct.queueCapacity) (h : step sh c p = some (sh', p')) :
    WithinCapacity sh' (p' ::ₘ (↑(spawned p c) + rest)) := by
  have hl := inv.recorded.linked
  have inv' := inv.step_preserved ⟨False.elim, False.elim⟩ h
  intro capacity hcap
  rw [hc] at hcap
  have hold := hw capacity hcap
  have hsum : sh.acct.count .queueSlot = Book.sum .queueSlot (book sh (p ::ₘ rest)) := inv.recorded.law.counts .queueSlot
  have hsum' : sh'.acct.count .queueSlot = Book.sum .queueSlot (book sh' (p' ::ₘ (↑(spawned p c) + rest))) :=
    inv'.recorded.law.counts .queueSlot
  by_cases hp : ∃ j, p = .submit j .handoff
  · -- The job that gets the slot is marked in the same step.
    obtain ⟨j, rfl⟩ := hp
    have hstored : stored sh' = stored sh ∧ p'.holdings = (j, .reserved) ::ₘ 0 ∧ sh'.bounded j = false := by
      cases h
      exact ⟨rfl, rfl, by simp [Shared.bounded]⟩
    obtain ⟨hstored, hheld, hself⟩ := hstored
    have hmark : ∀ i, sh'.bounded i = true → sh.bounded i = true := by
      intro i hi
      have hij : i ≠ j := by
        rintro rfl
        exact absurd (hi.symm.trans hself) Bool.false_ne_true.symm
      rcases step_handoff hl h i with he | he
      · rwa [Shared.bounded, he] at hi
      · cases he
        exact absurd rfl hij
    have hbook : ∀ ph, stored sh + (j, ph) ::ₘ 0 + rest.bind Pc.holdings =
        (j, ph) ::ₘ (stored sh + rest.bind Pc.holdings) := by
      intro ph
      rw [Multiset.add_cons, add_zero, Multiset.cons_add]
    have hbefore : book sh (.submit j .handoff ::ₘ rest) = _ := (book_cons _ _ _).trans (hbook .offered)
    rw [hbefore] at hold
    rw [book_spawned, hstored, hheld, hbook]
    exact Nat.le_trans (slots_marked hmark hself) hold
  · have hmark : sh'.bounded = sh.bounded := by
      funext j
      rcases step_handoff hl h j with he | he
      · rw [Shared.bounded, Shared.bounded, he]
      · exact absurd ⟨j, he⟩ hp
    rcases reserve_room h (fun j he => hp ⟨j, he⟩) with hle | hle
    · rw [hsum, hsum'] at hle
      rw [hmark]
      refine Nat.le_trans (Exchanged.slots_le ?_ hle) hold
      rw [book_cons, book_spawned]
      exact (step_exchanged hl h (inv.sound_step h)).add _
    · exact Nat.le_trans (slots_le_sum _ _) (hsum' ▸ hle capacity hcap)

/-- How many jobs hold a queue slot and were admitted together with a worker, or were not. -/
def slotHolders (sh : Shared) (ps : Multiset Pc) (handoff : Bool) : ℕ :=
  Multiset.card ((book sh ps).filter fun e => Phase.weight .queueSlot e.2 = 1 ∧ (sh.jobs e.1).handoff = handoff)

theorem slots_eq_card (sh : Shared) (ps : Multiset Pc) (handoff : Bool) :
    slots (fun j => (sh.jobs j).handoff == handoff) (book sh ps) = slotHolders sh ps handoff := by
  have hle : ∀ e : JobId × Phase,
      (if (sh.jobs e.1).handoff == handoff then Phase.weight .queueSlot e.2 else 0) ≤ 1 := by
    intro e
    split
    · exact Phase.weight_le_one _ _
    · exact Nat.zero_le 1
  refine (total_eq_card hle).trans (congrArg Multiset.card (Multiset.filter_congr fun e _ => ?_))
  by_cases hm : (sh.jobs e.1).handoff = handoff <;> simp [hm]

/-- Whoever holds a slot was admitted in one of the two ways. -/
theorem slots_split (sh : Shared) (B : Book) :
    slots (fun j => (sh.jobs j).handoff == false) B + slots (fun j => (sh.jobs j).handoff == true) B =
      Book.sum .queueSlot B := by
  rw [slots, slots, ← total_sum]
  refine total_congr fun e _ => ?_
  cases (sh.jobs e.1).handoff <;> simp

section
variable {config : ThreadPoolConfig} {tickets : JobId → Bool} {t : State Shared Pc}

theorem within_of_run (h : machine.Run Machine.free (init config tickets) t) :
    WithinCapacity t.shared t.actors := by
  refine induction_along (I := fun sh ps => Consistent False False sh ps ∧ Sized config sh) (J := WithinCapacity)
    ?_ ?_ ?_ h ?_
  · exact fun u hu => ⟨Consistent.of_free_run hu, sized_of_run hu⟩
  · intro sh p rest c sh' p' inv hw _ hm
    have hz := inv.2.step (step_resized hm)
    exact hw.step inv.1 (hz.capacity.trans inv.2.capacity.symm) hm
  · intro sh ps op sh' p _ hw hm capacity hcap
    have hhand : ∀ j, (sh'.jobs j).handoff = (sh.jobs j).handoff :=
      invoke_job (g := Job.handoff) (fun _ _ => rfl) hm
    have hbounded : sh'.bounded = sh.bounded := by
      funext j
      rw [Shared.bounded, Shared.bounded, hhand]
    have hstored : stored sh' = stored sh := by
      rw [invoke_same hm]
      rfl
    have hslots : slots sh.bounded p.holdings = 0 := by
      cases op with
      | submit i caller =>
        simp only [invoke] at hm
        split at hm <;> cases hm
        exact (slots_cons _ i .offered 0).trans (by simp [slots, Phase.weight])
      | cancelQueued i caller =>
        simp only [invoke] at hm
        split at hm <;> cases hm
        rfl
      | _ =>
        cases hm
        rfl
    have hbook : book sh' (p ::ₘ ps) = p.holdings + book sh ps := by
      rw [book_cons, hstored, book, add_comm (stored sh), add_assoc]
    have hsum : slots sh.bounded (p.holdings + book sh ps) = slots sh.bounded p.holdings + slots sh.bounded (book sh ps) :=
      total_add _ _ _
    rw [hbounded, hbook, hsum, hslots, Nat.zero_add]
    refine hw capacity ?_
    rw [invoke_same hm] at hcap
    exact hcap
  · intro capacity _
    exact Nat.zero_le capacity

end

end ThreadPools.Dynamic
