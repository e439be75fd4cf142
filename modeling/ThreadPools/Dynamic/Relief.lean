import ThreadPools.Dynamic.Calls

/-! # How a step brings the end closer

The counters fall, the workers leave and the lifecycle moves on at few control points. Who
stands at one of these knows what it did, and what a call has done to the lifecycle it knows
for good.
-/
namespace ThreadPools.Dynamic
open Interleaving

def Pc.lowers : Pc → Option Counter
  | .submit _ .rollback | .worker (.claimSlot _) | .cancel .subSlot _ => some .queueSlot
  | .submit _ .requestedWithdraw | .worker (.claimQueued _) | .stop (.drainWithdraw _ _ _)
  | .ticket _ .withdraw => some .queued
  | .worker (.finishRunning _) => some .running
  | .cancel .subCancelling _ => some .cancelling
  | _ => none

/-- How a step can bring a condition closer that somebody waits for. -/
structure Relief (sh : Shared) (p : Pc) (sh' : Shared) (p' : Pc) : Prop where
  inflight : sh.acct.inflightCount ≤ sh'.acct.inflightCount ∨ ∃ j result, p = .submit j (.leave result) ∧
    (sh'.acct.inflightCount = 0 → p' = .submit j (.departGate result))
  count : ∀ d, sh.acct.count d ≤ sh'.acct.count d ∨ p.lowers = some d
  lifecycle : sh'.state.lifecycle = sh.state.lifecycle ∨ p = .shutdown .lockState ∨ p = .stop .lockState
  live : sh.state.liveWorkers ≤ sh'.state.liveWorkers ∨ p = .worker .unregister ∨ ∃ k, p = .spawn .rollback k
  exiting : sh.state.exitingWorkers ≤ sh'.state.exitingWorkers ∨ p = .worker .exitLock
  epoch : sh.epoch ≤ sh'.epoch
  published : sh'.terminationTx = sh.terminationTx ∨ ∃ k, p = .publish k

namespace Relief
variable {sh sh' : Shared} {p p' : Pc}

theorem of_state (ha : sh'.acct = sh.acct)
    (hl : sh'.state.lifecycle = sh.state.lifecycle ∨ p = .shutdown .lockState ∨ p = .stop .lockState)
    (hw : sh.state.liveWorkers ≤ sh'.state.liveWorkers ∨ p = .worker .unregister ∨ ∃ k, p = .spawn .rollback k)
    (hx : sh.state.exitingWorkers ≤ sh'.state.exitingWorkers ∨ p = .worker .exitLock)
    (he : sh.epoch ≤ sh'.epoch) (ht : sh'.terminationTx = sh.terminationTx := by rfl) : Relief sh p sh' p' where
  inflight := Or.inl (by rw [ha])
  count := fun d => Or.inl (by rw [ha])
  lifecycle := hl
  live := hw
  exiting := hx
  epoch := he
  published := Or.inl ht

theorem of_same (ha : sh'.acct = sh.acct) (hs : sh'.state = sh.state) (he : sh.epoch ≤ sh'.epoch)
    (ht : sh'.terminationTx = sh.terminationTx := by rfl) : Relief sh p sh' p' :=
  of_state ha (Or.inl (by rw [hs])) (Or.inl (by rw [hs])) (Or.inl (by rw [hs])) he ht

theorem of_acct (hi : sh.acct.inflightCount ≤ sh'.acct.inflightCount ∨ ∃ j result, p = .submit j (.leave result) ∧
      (sh'.acct.inflightCount = 0 → p' = .submit j (.departGate result)))
    (hc : ∀ d, sh.acct.count d ≤ sh'.acct.count d ∨ p.lowers = some d)
    (hs : sh'.state = sh.state) (he : sh'.epoch = sh.epoch)
    (ht : sh'.terminationTx = sh.terminationTx := by rfl) : Relief sh p sh' p' where
  inflight := hi
  count := hc
  lifecycle := Or.inl (by rw [hs])
  live := Or.inl (by rw [hs])
  exiting := Or.inl (by rw [hs])
  epoch := by rw [he]
  published := Or.inl ht

theorem of_raise {d : Counter} (ha : sh'.acct = sh.acct.add d) (hs : sh'.state = sh.state)
    (he : sh'.epoch = sh.epoch) (ht : sh'.terminationTx = sh.terminationTx := by rfl) : Relief sh p sh' p' := by
  refine of_acct (Or.inl ?_) (fun e => Or.inl ?_) hs he ht
  · rw [ha]
    exact Nat.le_refl _
  · rw [ha, PoolAccounting.add_count]
    omega

theorem of_lower {d : Counter} {a : PoolAccounting} (hp : p.lowers = some d) (hd : sh.acct.sub d = some a)
    (ha : sh'.acct = a) (hs : sh'.state = sh.state) (he : sh'.epoch = sh.epoch)
    (ht : sh'.terminationTx = sh.terminationTx := by rfl) : Relief sh p sh' p' := by
  refine of_acct (Or.inl ?_) (fun e => ?_) hs he ht
  · rw [ha, PoolAccounting.inflightCount_of_sub hd]
  · have hc := PoolAccounting.sub_count hd e
    by_cases h : e = d
    · exact Or.inr (h ▸ hp)
    · left
      rw [ha]
      simp only [h, if_false] at hc
      omega

end Relief

variable {sh sh' : Shared} {p p' : Pc} {c : Outcome} {j : JobId}
open Relief

theorem submitStep_relief {p : SubmitPc} (h : submitStep sh j c p = some (sh', p')) :
    Relief sh (.submit j p) sh' p' := by
  cases p with
  | enter =>
    simp only [submitStep] at h
    split at h
    · rename_i ha
      cases h
      have hi := PoolAccounting.inflightCount_of_tryEnter ha
      obtain ⟨g, -, rfl⟩ := Option.map_eq_some_iff.mp ha
      refine of_acct (Or.inl ?_) (fun _ => Or.inl (Nat.le_refl _)) rfl rfl
      exact hi ▸ Nat.le_succ _
    · cases h
      exact of_same rfl rfl (Nat.le_refl _)
  | reserveSlot =>
    simp only [submitStep] at h
    split at h
    · rename_i ha
      obtain rfl := PoolAccounting.tryReserveBoundedSlot_eq ha
      cases h
      exact of_raise rfl rfl rfl
    · split at h <;> cases h
      · exact of_state rfl (Or.inl rfl) (Or.inl (Nat.le_succ _)) (Or.inl (Nat.le_refl _)) (Nat.le_refl _)
      · exact of_same rfl rfl (Nat.le_refl _)
  | checkState =>
    simp only [submitStep] at h
    repeat' split at h
    all_goals cases h
    · exact of_same rfl rfl (Nat.le_refl _)
    · exact of_state rfl (Or.inl rfl) (Or.inl (Nat.le_succ _)) (Or.inl (Nat.le_refl _)) (Nat.le_refl _)
    · exact of_state rfl (Or.inl rfl) (Or.inl (Nat.le_succ _)) (Or.inl (Nat.le_refl _)) (Nat.le_refl _)
    · exact of_same rfl rfl (Nat.le_refl _)
  | leave result =>
    simp only [submitStep] at h
    split at h
    · rename_i a last ha
      cases h
      obtain ⟨⟨g, b⟩, hg, hb⟩ := Option.map_eq_some_iff.mp ha
      cases hb
      unfold AdmissionGate.leave at hg
      split at hg
      · cases hg
        refine of_acct (Or.inr ⟨j, result, rfl, fun hz => ?_⟩) (fun _ => Or.inl (Nat.le_refl _)) rfl rfl
        have hz' : sh.acct.admission.inflight - 1 = 0 := hz
        have hone : sh.acct.admission.inflight = 1 := by omega
        simp [hone]
      · cases hg
    · cases h
      exact of_same rfl rfl (Nat.le_refl _)
  | _ =>
    simp only [submitStep, Shared.lock, Shared.lockQueue, Shared.withLock, Shared.lower] at h
    repeat' split at h
    all_goals cases h
    all_goals first
      | exact of_same rfl rfl (Nat.le_refl _)
      | exact of_same rfl rfl (Nat.le_succ _)
      | exact of_raise rfl rfl rfl
      | exact of_lower rfl ‹_› rfl rfl rfl

theorem workerStep_relief {p : WorkerPc} (h : workerStep sh c p = some (sh', p')) :
    Relief sh (.worker p) sh' p' := by
  cases p with
  | takePop =>
    simp only [workerStep] at h
    split at h
    · cases h
      exact of_same rfl rfl (Nat.le_refl _)
    · split at h
      · rename_i hs
        obtain rfl := takeQueued_eq_some hs
        cases h
        exact of_same rfl rfl (Nat.le_refl _)
      · cases h
        exact of_same rfl rfl (Nat.le_refl _)
  | unregister =>
    simp only [workerStep] at h
    split at h <;> cases h
    · exact of_state rfl (Or.inl rfl) (Or.inr (Or.inl rfl)) (Or.inl (Nat.le_succ _)) (Nat.le_refl _)
    · exact of_same rfl rfl (Nat.le_refl _)
  | exitLock =>
    obtain ⟨s, hs, h⟩ := Option.map_eq_some_iff.mp h
    obtain ⟨-, rfl⟩ := sh.lock_eq_some hs
    split at h <;> cases h
    · exact of_state rfl (Or.inl rfl) (Or.inl (Nat.le_refl _)) (Or.inr rfl) (Nat.le_refl _)
    · exact of_same rfl rfl (Nat.le_refl _)
  | _ =>
    simp only [workerStep, Shared.lock, Shared.lockQueue, Shared.lower] at h
    repeat' split at h
    all_goals first | (simp only [Option.map_some] at h; (repeat' split at h) <;> cases h) | cases h
    all_goals first
      | exact of_same rfl rfl (Nat.le_refl _)
      | exact of_same rfl rfl (Nat.le_succ _)
      | exact of_raise rfl rfl rfl
      | exact of_lower rfl ‹_› rfl rfl rfl
      | exact of_state rfl (Or.inl rfl) (Or.inl (Nat.le_refl _)) (Or.inl (Nat.le_refl _)) (Nat.le_refl _)

theorem stopStep_relief {p : StopPc} (h : stopStep sh p = some (sh', p')) : Relief sh (.stop p) sh' p' := by
  cases p with
  | close =>
    cases h
    exact of_acct (Or.inl (Nat.le_refl _)) (fun _ => Or.inl (Nat.le_refl _)) rfl rfl
  | lockState =>
    obtain ⟨s, hs, h⟩ := Option.map_eq_some_iff.mp h
    obtain ⟨-, rfl⟩ := sh.lock_eq_some hs
    cases hl : sh.state.lifecycle <;> simp only [hl] at h <;> cases h
    all_goals
      exact of_state rfl (Or.inr (Or.inr rfl)) (Or.inl (Nat.le_refl _)) (Or.inl (Nat.le_refl _)) (Nat.le_refl _)
  | drain running jobs =>
    simp only [stopStep] at h
    split at h
    · cases h
      exact of_same rfl rfl (Nat.le_refl _)
    · split at h
      · rename_i hs
        obtain rfl := takeQueued_eq_some hs
        cases h
        exact of_same rfl rfl (Nat.le_refl _)
      · cases h
        exact of_same rfl rfl (Nat.le_refl _)
  | next jobs report =>
    cases jobs <;> cases h
    all_goals exact of_same rfl rfl (Nat.le_refl _)
  | _ =>
    simp only [stopStep, Shared.lock, Shared.lockQueue, Shared.withLock, Shared.lower] at h
    repeat' split at h
    all_goals cases h
    all_goals first
      | exact of_same rfl rfl (Nat.le_refl _)
      | exact of_same rfl rfl (Nat.le_succ _)
      | exact of_raise rfl rfl rfl
      | exact of_lower rfl ‹_› rfl rfl rfl

theorem ticketStep_relief {p : TicketPc} (h : ticketStep sh j p = some (sh', p')) :
    Relief sh (.ticket j p) sh' p' := by
  cases p with
  | remove =>
    simp only [ticketStep] at h
    split at h
    · split at h
      · rename_i hs
        obtain rfl := takeQueued_eq_some hs
        cases h
        exact of_same rfl rfl (Nat.le_refl _)
      · cases h
        exact of_same rfl rfl (Nat.le_refl _)
    · cases h
      exact of_same rfl rfl (Nat.le_refl _)
  | _ =>
    simp only [ticketStep, Shared.lockQueue, Shared.lower] at h
    repeat' split at h
    all_goals cases h
    all_goals first
      | exact of_same rfl rfl (Nat.le_refl _)
      | exact of_raise rfl rfl rfl
      | exact of_lower rfl ‹_› rfl rfl rfl

theorem cancelStep_relief {p : CancelPc} {k : CancelCaller} (h : cancelStep sh k p = some (sh', p')) :
    Relief sh (.cancel p k) sh' p' := by
  cases p with
  | done =>
    cases k <;> cases h
    all_goals exact of_same rfl rfl (Nat.le_refl _)
  | _ =>
    simp only [cancelStep, Shared.lower] at h
    repeat' split at h
    all_goals cases h
    all_goals first
      | exact of_same rfl rfl (Nat.le_refl _)
      | exact of_raise rfl rfl rfl
      | exact of_lower rfl ‹_› rfl rfl rfl

theorem step_relief (h : step sh c p = some (sh', p')) : Relief sh p sh' p' := by
  cases p with
  | submit j p => exact submitStep_relief h
  | spawn p k =>
    cases p with
    | rollback =>
      simp only [step, spawnStep] at h
      split at h <;> cases h
      · exact of_state rfl (Or.inl rfl) (Or.inr (Or.inr ⟨k, rfl⟩)) (Or.inl (Nat.le_refl _)) (Nat.le_refl _)
      · exact of_same rfl rfl (Nat.le_refl _)
    | spawn =>
      cases c <;> cases h
      all_goals exact of_same rfl rfl (Nat.le_refl _)
    | notify =>
      cases h
      exact of_same rfl rfl (Nat.le_succ _)
    | _ =>
      cases h
      exact of_same rfl rfl (Nat.le_refl _)
  | prestart =>
    obtain ⟨s, hs, h⟩ := Option.map_eq_some_iff.mp h
    obtain ⟨-, rfl⟩ := sh.lock_eq_some hs
    repeat' split at h
    all_goals cases h
    · exact of_same rfl rfl (Nat.le_refl _)
    · exact of_same rfl rfl (Nat.le_refl _)
    · exact of_state rfl (Or.inl rfl) (Or.inl (Nat.le_succ _)) (Or.inl (Nat.le_refl _)) (Nat.le_refl _)
  | worker p => exact workerStep_relief h
  | shutdown p =>
    cases p with
    | close =>
      cases h
      exact of_acct (Or.inl (Nat.le_refl _)) (fun _ => Or.inl (Nat.le_refl _)) rfl rfl
    | lockState =>
      obtain ⟨s, hs, h⟩ := Option.map_eq_some_iff.mp h
      obtain ⟨-, rfl⟩ := sh.lock_eq_some hs
      split at h <;> cases h
      all_goals
        exact of_state rfl (Or.inr (Or.inl rfl)) (Or.inl (Nat.le_refl _)) (Or.inl (Nat.le_refl _)) (Nat.le_refl _)
    | notifyAll =>
      cases h
      exact of_same rfl rfl (Nat.le_succ _)
    | _ =>
      cases h
      all_goals exact of_same rfl rfl (Nat.le_refl _)
  | stop p => exact stopStep_relief h
  | ticket j p => exact ticketStep_relief h
  | cancel p k => exact cancelStep_relief h
  | join p =>
    cases p
    all_goals simp only [step, joinStep, Shared.lock] at h
    all_goals repeat' split at h
    all_goals cases h
    all_goals exact of_same rfl rfl (Nat.le_refl _)
  | observe p =>
    cases p with
    | unlock o terminated =>
      cases o <;> cases h
      all_goals exact of_same rfl rfl (Nat.le_refl _)
    | _ =>
      simp only [step, observeStep, Shared.lock] at h
      repeat' split at h
      all_goals cases h
      all_goals exact of_same rfl rfl (Nat.le_refl _)
  | setter p =>
    cases p
    all_goals simp only [step, setterStep, Shared.withLock] at h
    all_goals repeat' split at h
    all_goals cases h
    all_goals first
      | exact of_same rfl rfl (Nat.le_refl _)
      | exact of_state rfl (Or.inl rfl) (Or.inl (Nat.le_refl _)) (Or.inl (Nat.le_refl _)) (Nat.le_refl _)
      | exact of_state rfl (Or.inl rfl) (Or.inl (Nat.le_refl _)) (Or.inl (Nat.le_refl _)) (Nat.le_succ _)
  | notifyLock k =>
    obtain ⟨s, hs, h⟩ := Option.map_eq_some_iff.mp h
    obtain ⟨-, rfl⟩ := sh.lock_eq_some hs
    cases h
    exact of_same rfl rfl (Nat.le_refl _)
  | notifyAll k =>
    cases h
    exact of_same rfl rfl (Nat.le_succ _)
  | publish k =>
    cases h
    exact ⟨Or.inl (Nat.le_refl _), fun _ => Or.inl (Nat.le_refl _), Or.inl rfl, Or.inl (Nat.le_refl _),
      Or.inl (Nat.le_refl _), Nat.le_refl _, Or.inr ⟨k, rfl⟩⟩
  | prestarted _ => cases h
  | panicked _ => cases h
  | _ =>
    cases h
    exact of_same rfl rfl (Nat.le_refl _)

def StopPc.issued : StopPc → Bool
  | .close | .notifyCapacity | .storeStop | .lockState => false
  | _ => true

def Pc.directIssued : Pc → Bool
  | .shutdown .notifyAll | .shutdown .returned | .cancel _ (.stop _ _ _) => true
  | .stop p => p.issued
  | _ => false

def Pc.issued (p : Pc) : Bool := p.home.directIssued

/-- A worker that has found the pool running and still holds the monitor. -/
def Pc.onDuty : Pc → Bool
  | .worker (.mark _) | .worker (.readQueued _) | .worker (.readPending _) | .worker (.park _) => true
  | _ => false

theorem steady_issued : Steady Pc.directIssued := ⟨fun _ _ => rfl, rfl, fun _ => rfl, rfl, rfl⟩

/-- A call counts as issued from its store of the lifecycle on. -/
theorem issued_step (h : step sh c p = some (sh', p')) (hn : ∀ e, p' ≠ .panicked e) (hi : p'.issued = true) :
    p.issued = true ∨ p = .shutdown .lockState ∨ p = .stop .lockState := by
  by_cases hs : p.inShared = true
  · left
    have hd : p'.issued = p.issued := steady_issued.step hs h
    rw [← hd]
    exact hi
  -- The other control points are those of the calls themselves.
  have hcall : p'.call = some .shutdown ∨ p'.call = some .stop := by
    unfold Pc.issued Pc.directIssued at hi
    unfold Pc.call Pc.directCall
    split at hi <;> first | cases hi | skip
    all_goals simp_all [CancelCaller.call]
  rw [(step_work h).caller hn] at hcall
  cases p with
  | shutdown p =>
    cases p with
    | close | notifyCapacity => cases h; cases hi
    | lockState => exact Or.inr (Or.inl rfl)
    | _ => exact Or.inl rfl
  | stop p =>
    cases p with
    | close | notifyCapacity | storeStop => cases h; cases hi
    | lockState => exact Or.inr (Or.inr rfl)
    | _ => exact Or.inl rfl
  | cancel p k =>
    cases k with
    | stop => exact Or.inl rfl
    | _ => rcases hcall with hcall | hcall <;> cases hcall
  | spawn p k => cases k <;> rcases hcall with hcall | hcall <;> cases hcall
  | notifyLock | notifyAll | term | publish | idle => exact absurd rfl hs
  | _ => rcases hcall with hcall | hcall <;> cases hcall

/-- A worker is on duty from the moment it finds the pool running. -/
theorem onDuty_step (h : step sh c p = some (sh', p')) (hd : p'.onDuty = true) :
    sh'.state.lifecycle = .running ∨ p.onDuty = true ∧ sh'.state.lifecycle = sh.state.lifecycle := by
  unfold Pc.onDuty at hd
  split at hd
  · obtain ⟨w, rfl, hw⟩ := worker_step h rfl
    exact Or.inl (workerStep_arrives hw)
  · obtain ⟨w, rfl, hw⟩ := worker_step h rfl
    obtain ⟨rfl, hs⟩ := workerStep_arrives hw
    exact Or.inr ⟨rfl, by rw [hs]; rfl⟩
  · obtain ⟨w, rfl, hw⟩ := worker_step h rfl
    obtain ⟨rfl, rfl⟩ := workerStep_arrives hw
    exact Or.inr ⟨rfl, rfl⟩
  · obtain ⟨w, rfl, hw⟩ := worker_step h rfl
    obtain ⟨rfl, rfl⟩ := workerStep_arrives hw
    exact Or.inr ⟨rfl, rfl⟩
  · cases hd

structure Informed (sh : Shared) (p : Pc) : Prop where
  issued : p.issued = true → sh.state.lifecycle ≠ .running
  onDuty : p.onDuty = true → sh.state.lifecycle = .running

theorem Effect.not_running (eff : Effect sh p sh') (hl : sh.state.lifecycle ≠ .running) :
    sh'.state.lifecycle ≠ .running := by
  intro he
  have hr := eff.lifecycle
  rw [he] at hr
  cases h : sh.state.lifecycle <;> first | exact hl h | simp [h, ExecutorServiceLifecycle.rank] at hr

section
variable {config : ThreadPoolConfig} {tickets : JobId → Bool} {ok : Machine.Guard Shared Pc Outcome}
variable {t : State Shared Pc}

theorem informed_of_run (h : machine.Run ok (init config tickets) t) : ∀ p ∈ t.actors, Informed t.shared p := by
  refine known_along (K := Informed) .refl ?_ ?_ (fun _ => ⟨(by rintro ⟨⟩), (by rintro ⟨⟩)⟩) ?_ h (List.forall_mem_nil _)
  · intro sh p rest c sh' p' inv hk _ hm
    have hn := inv.sound_step hm
    refine ⟨fun hi => ?_, fun hd => ?_⟩
    · rcases issued_step hm hn hi with hp | rfl | rfl
      · exact (step_effect hm).not_running (hk.issued hp)
      · obtain ⟨s, hs, hm⟩ := Option.map_eq_some_iff.mp hm
        split at hm <;> cases hm
        · rintro ⟨⟩
        · assumption
      · obtain ⟨s, hs, hm⟩ := Option.map_eq_some_iff.mp hm
        obtain ⟨-, rfl⟩ := sh.lock_eq_some hs
        cases hl : sh.state.lifecycle <;> simp only [hl] at hm <;> cases hm <;> simp [Shared.setLifecycle, hl]
    · rcases onDuty_step hm hd with hl | ⟨hp, hl⟩
      · exact hl
      · rw [hl]
        exact hk.onDuty hp
  · intro sh p rest c sh' p' q inv hq hk _ hm
    have eff := step_effect hm
    refine ⟨fun hi => eff.not_running (hk.issued hi), fun hd => ?_⟩
    have hlocks : q.locks = true := by
      unfold Pc.onDuty at hd
      split at hd <;> first | rfl | cases hd
    rw [(state_frame hq hlocks eff inv.gauged).2]
    exact hk.onDuty hd
  · intro sh ps op sh' p _ hm
    have hs : sh'.state = sh.state := by rw [invoke_same hm]
    refine ⟨?_, fun q _ hk => ⟨by rw [hs]; exact hk.issued, by rw [hs]; exact hk.onDuty⟩⟩
    cases op with
    | submit j caller | cancelQueued j caller =>
      simp only [invoke] at hm
      split at hm <;> cases hm
      exact ⟨(by rintro ⟨⟩), (by rintro ⟨⟩)⟩
    | _ =>
      cases hm
      exact ⟨(by rintro ⟨⟩), (by rintro ⟨⟩)⟩

end

end ThreadPools.Dynamic
