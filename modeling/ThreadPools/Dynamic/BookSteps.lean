import ThreadPools.Dynamic.Book

/-! # Every step of the dynamic pool keeps the book -/
namespace ThreadPools.Dynamic
open Interleaving

structure Posted (sh : Shared) (p : Pc) (B : Book) : Prop where
  sound : ∀ c, p ≠ .panicked (.counter c)
  recorded : Recorded sh (p.onto B)

variable {sh sh' : Shared} {p' : Pc} {c : Outcome} {B : Book} {j : JobId}

theorem workerStep_posted {p : WorkerPc} (r : Recorded sh ((Pc.worker p).onto B))
    (h : workerStep sh c p = some (sh', p')) : Posted sh' p' B := by
  cases p with
  | takePop =>
    simp only [workerStep] at h
    split at h
    · cases h
      exact ⟨nofun, r⟩
    · rename_i j rest hq
      have hp : sh.globalQueue.Perm (j :: rest) := by rw [hq]
      obtain ⟨hs, hr⟩ := r.remove hp
      rw [hs] at h
      cases h
      exact ⟨nofun, hr⟩
  | claimQueued j =>
    obtain ⟨a, ha, hr⟩ := r.lower Phase.raises_unclaimed rfl
    simp only [workerStep, Shared.lower, ha] at h
    cases h
    exact ⟨nofun, hr⟩
  | claimRunning j =>
    cases h
    exact ⟨nofun, r.raise Phase.raises_claimed rfl⟩
  | claimSlot j =>
    obtain ⟨a, ha, hr⟩ := r.lower Phase.raises_unready rfl
    simp only [workerStep, Shared.lower, ha] at h
    cases h
    exact ⟨nofun, hr⟩
  | callRun j =>
    cases h
    exact ⟨nofun, r.trace .runBegin (fun d => by cases d <;> rfl) rfl⟩
  | running j =>
    cases h
    exact ⟨nofun, r.trace .runEnd (fun d => by cases d <;> rfl) rfl⟩
  | finishCompleted j =>
    cases h
    exact ⟨nofun, r.raise Phase.raises_finishing rfl⟩
  | finishRunning j =>
    obtain ⟨a, ha, hr⟩ := r.settle Phase.raises_uncompleted rfl
    simp only [workerStep, Shared.lower, ha] at h
    cases h
    exact ⟨nofun, hr.finish⟩
  | _ =>
    simp only [workerStep, Shared.lock, Shared.lockQueue] at h
    repeat' split at h
    all_goals first | (simp only [Option.map_some] at h; (repeat' split at h) <;> cases h) | cases h
    all_goals exact ⟨nofun, r.law, r.linked⟩

theorem submitStep_posted {p : SubmitPc} (r : Recorded sh ((Pc.submit j p).onto B))
    (h : submitStep sh j c p = some (sh', p')) (hg : ∀ e, p' = .panicked e → ∃ c, e = .counter c) :
    Posted sh' p' B := by
  cases p with
  | enter =>
    simp only [submitStep] at h
    split at h
    · rename_i a ha
      obtain ⟨g, -, rfl⟩ := Option.map_eq_some_iff.mp ha
      cases h
      exact ⟨nofun, r.law.regate g, r.linked⟩
    · cases h
      exact ⟨nofun, r.rephase (fun d => by cases d <;> rfl) rfl⟩
  | checkState =>
    simp only [submitStep] at h
    repeat' split at h
    all_goals cases h
    · exact ⟨nofun, r.rephase (fun d => by cases d <;> rfl) rfl⟩
    all_goals exact ⟨nofun, r.law, r.linked⟩
  | reserveSlot =>
    simp only [submitStep] at h
    split at h
    · rename_i a ha
      obtain rfl := PoolAccounting.tryReserveBoundedSlot_eq ha
      cases h
      exact ⟨nofun, r.raise Phase.raises_reserved rfl⟩
    · split at h
      · cases h
        exact ⟨nofun, r.law, r.linked⟩
      · cases h
        exact ⟨nofun, r.rephase (fun d => by cases d <;> rfl) rfl⟩
  | handoff =>
    cases h
    exact ⟨nofun, (r.raise Phase.raises_reserved rfl).setJob rfl rfl⟩
  | beginAccept =>
    simp only [submitStep] at h
    split at h
    · cases h
      exact ⟨nofun, r.setEntry _⟩
    · cases h
      exact ⟨nofun, r⟩
  | callAccept =>
    cases h
    exact ⟨nofun, r.trace .acceptBegin (fun d => by cases d <;> rfl) rfl⟩
  | accepting =>
    cases c with
    | ok =>
      cases h
      exact ⟨nofun, r.trace .acceptEnd (fun d => by cases d <;> rfl) rfl⟩
    | err =>
      cases h
      exact ⟨nofun, r.trace .acceptPanicked (fun d => by cases d <;> rfl) rfl⟩
  | rollback =>
    obtain ⟨a, ha, hr⟩ := r.lower Phase.raises_refused rfl
    simp only [submitStep, Shared.lower, ha] at h
    cases h
    exact ⟨nofun, hr⟩
  | setRejected =>
    simp only [submitStep] at h
    split at h
    · cases h
      exact ⟨nofun, r.setEntry _⟩
    · cases h
      exact ⟨nofun, r⟩
  | publishSubmitted =>
    cases h
    exact ⟨nofun, r.raise Phase.raises_submitted rfl⟩
  | publishQueued =>
    cases h
    exact ⟨nofun, r.raise Phase.raises_queued rfl⟩
  | decideEntry =>
    simp only [submitStep] at h
    split at h
    · cases h
      exact ⟨nofun, r.setJob rfl rfl⟩
    · cases h
      exact ⟨nofun, r.push⟩
  | requestedWithdraw =>
    obtain ⟨a, ha, hr⟩ := r.lower Phase.raises_unwithdrawn rfl
    simp only [submitStep, Shared.lower, ha] at h
    cases h
    exact ⟨nofun, hr⟩
  | requestedCancelling =>
    cases h
    exact ⟨nofun, r.raise Phase.raises_withdrawn rfl⟩
  | requestedUnlock =>
    cases h
    have hr := r.setJob (f := fun job => { job with entryLocked := false }) rfl rfl
    exact ⟨nofun, hr.law, hr.linked⟩
  | leave result =>
    simp only [submitStep] at h
    split at h
    · rename_i a last ha
      obtain ⟨g, -, hg⟩ := Option.map_eq_some_iff.mp ha
      cases hg
      cases h
      refine ⟨?_, ?_⟩
      · split <;> exact nofun
      · split <;> exact ⟨r.law.regate g.1, r.linked⟩
    · cases h
      obtain ⟨c, hc⟩ := hg _ rfl
      cases hc
  | _ =>
    simp only [submitStep, Shared.lock, Shared.lockQueue, Shared.withLock] at h
    repeat' split at h
    all_goals cases h
    all_goals exact ⟨nofun, r.law, r.linked⟩

theorem spawnStep_posted {p : SpawnPc} {k : SpawnCaller} (r : Recorded sh ((Pc.spawn p k).onto B))
    (h : spawnStep sh k c p = some (sh', p')) (hg : ∀ e, p' = .panicked e → ∃ c, e = .counter c) :
    Posted sh' p' B := by
  cases p with
  | spawn =>
    cases c <;> cases h
    all_goals exact ⟨nofun, r⟩
  | liveCount =>
    cases k <;> cases h
    all_goals exact ⟨nofun, r.law, r.linked⟩
  | rollback =>
    simp only [spawnStep] at h
    split at h
    · cases h
      exact ⟨nofun, r.law, r.linked⟩
    · cases h
      obtain ⟨c, hc⟩ := hg _ rfl
      cases hc
  | notify =>
    cases h
    exact ⟨nofun, r.law, r.linked⟩
  | unlock =>
    cases k with
    | submit j =>
      cases h
      have hw : ∀ d, Phase.weight d (.rejected (.rejected .workerSpawnFailed)) = Phase.weight d .offered := by
        intro d
        cases d <;> rfl
      have hr := r.rephase hw rfl
      exact ⟨nofun, hr.law, hr.linked⟩
    | prestart =>
      cases h
      exact ⟨nofun, r.law, r.linked⟩

theorem prestartStep_posted (r : Recorded sh B) (h : prestartStep sh = some (sh', p')) :
    Posted sh' p' B := by
  simp only [prestartStep, Shared.lock] at h
  split at h
  · cases h
  · simp only [Option.map_some] at h
    repeat' split at h
    all_goals cases h
    all_goals exact ⟨nofun, r.law, r.linked⟩

theorem shutdownStep_posted {p : ShutdownPc} (r : Recorded sh B)
    (h : shutdownStep sh p = some (sh', p')) : Posted sh' p' B := by
  cases p with
  | close =>
    cases h
    exact ⟨nofun, r.law.regate _, r.linked⟩
  | lockState =>
    obtain ⟨s, hs, h⟩ := Option.map_eq_some_iff.mp h
    obtain ⟨-, rfl⟩ := sh.lock_eq_some hs
    split at h <;> cases h
    all_goals exact ⟨nofun, r.law, r.linked⟩
  | _ =>
    cases h
    all_goals exact ⟨nofun, r.law, r.linked⟩

theorem stopStep_posted {p : StopPc} (r : Recorded sh ((Pc.stop p).onto B))
    (h : stopStep sh p = some (sh', p')) : Posted sh' p' B := by
  cases p with
  | close =>
    cases h
    exact ⟨nofun, r.law.regate _, r.linked⟩
  | drain running jobs =>
    simp only [stopStep] at h
    split at h
    · cases h
      exact ⟨nofun, r⟩
    · rename_i j rest hq
      have hp : sh.globalQueue.Perm (j :: rest) := by rw [hq]
      obtain ⟨hs, hr⟩ := r.remove hp
      rw [hs] at h
      cases h
      exact ⟨nofun, hr⟩
  | drainWithdraw running jobs j =>
    obtain ⟨a, ha, hr⟩ := r.lower Phase.raises_unwithdrawn rfl
    simp only [stopStep, Shared.lower, ha] at h
    cases h
    exact ⟨nofun, hr⟩
  | drainCancelling running jobs j =>
    cases h
    have hr := r.raise Phase.raises_withdrawn rfl
    rw [← Book.entered_append] at hr
    exact ⟨nofun, hr⟩
  | next jobs report =>
    cases jobs with
    | nil =>
      cases h
      exact ⟨nofun, r⟩
    | cons j jobs =>
      cases h
      exact ⟨nofun, r⟩
  | _ =>
    simp only [stopStep, Shared.lock, Shared.lockQueue, Shared.withLock] at h
    repeat' split at h
    all_goals first | (simp only [Option.map_some] at h; (repeat' split at h) <;> cases h) | cases h
    all_goals exact ⟨nofun, r.law, r.linked⟩

theorem ticketStep_posted {p : TicketPc} (r : Recorded sh ((Pc.ticket j p).onto B))
    (h : ticketStep sh j p = some (sh', p')) : Posted sh' p' B := by
  cases p with
  | check caller =>
    simp only [ticketStep] at h
    repeat' split at h
    all_goals cases h
    all_goals first | exact ⟨nofun, r⟩ | skip
    rename_i owner requested he _
    exact ⟨nofun, r.request he⟩
  | remove =>
    simp only [ticketStep] at h
    split at h
    · rename_i hj
      obtain ⟨hs, hr⟩ := r.remove (List.perm_cons_erase hj)
      rw [hs] at h
      cases h
      exact ⟨nofun, hr⟩
    · cases h
      exact ⟨nofun, r⟩
  | withdraw =>
    obtain ⟨a, ha, hr⟩ := r.lower Phase.raises_unwithdrawn rfl
    simp only [ticketStep, Shared.lower, ha] at h
    cases h
    exact ⟨nofun, hr⟩
  | cancelling =>
    cases h
    exact ⟨nofun, r.raise Phase.raises_withdrawn rfl⟩
  | _ =>
    simp only [ticketStep, Shared.lockQueue] at h
    repeat' split at h
    all_goals cases h
    all_goals exact ⟨nofun, r.law, r.linked⟩

theorem cancelStep_posted {p : CancelPc} {k : CancelCaller} (r : Recorded sh ((Pc.cancel p k).onto B))
    (h : cancelStep sh k p = some (sh', p')) : Posted sh' p' B := by
  cases p with
  | call =>
    cases h
    exact ⟨nofun, r.trace .cancelBegin (fun d => by cases d <;> rfl) rfl⟩
  | running =>
    cases h
    exact ⟨nofun, r.trace .cancelEnd (fun d => by cases d <;> rfl) rfl⟩
  | addCancelled =>
    cases h
    exact ⟨nofun, r.raise Phase.raises_settling rfl⟩
  | subCancelling =>
    obtain ⟨a, ha, hr⟩ := r.lower Phase.raises_unsettled rfl
    simp only [cancelStep, Shared.lower, ha] at h
    cases h
    exact ⟨nofun, hr⟩
  | subSlot =>
    obtain ⟨a, ha, hr⟩ := r.settle Phase.raises_uncancelled rfl
    simp only [cancelStep, Shared.lower, ha] at h
    cases h
    exact ⟨nofun, hr⟩
  | notifyCapacity =>
    cases h
    exact ⟨nofun, r.law, r.linked⟩
  | done =>
    cases k with
    | submitter j =>
      cases h
      exact ⟨nofun, (r.setEntry _).finish⟩
    | ticket j =>
      cases h
      exact ⟨nofun, r.finish⟩
    | stop j rest report =>
      cases h
      exact ⟨nofun, r.finish⟩

theorem joinStep_posted {p : JoinPc} (r : Recorded sh B) (h : joinStep sh p = some (sh', p')) :
    Posted sh' p' B := by
  cases p <;> simp only [joinStep, Shared.lock] at h
  all_goals repeat' split at h
  all_goals cases h
  all_goals exact ⟨nofun, r.law, r.linked⟩

theorem observeStep_posted {p : ObservePc} (r : Recorded sh B)
    (h : observeStep sh c p = some (sh', p')) : Posted sh' p' B := by
  cases p with
  | lockState o =>
    obtain ⟨s, hs, h⟩ := Option.map_eq_some_iff.mp h
    obtain ⟨-, rfl⟩ := sh.lock_eq_some hs
    cases o <;> cases h
    all_goals exact ⟨nofun, r.law, r.linked⟩
  | _ =>
    simp only [observeStep, Shared.lock] at h
    repeat' split at h
    all_goals cases h
    all_goals exact ⟨nofun, r.law, r.linked⟩

theorem setterStep_posted {p : SetterPc} (r : Recorded sh B) (h : setterStep sh p = some (sh', p')) :
    Posted sh' p' B := by
  cases p <;> simp only [setterStep, Shared.withLock] at h
  all_goals repeat' split at h
  all_goals cases h
  all_goals exact ⟨nofun, r.law, r.linked⟩

theorem NotifyCaller.resume_onto (k : NotifyCaller) : k.resume.onto B = k.resume.direct B := by
  cases k <;> rfl

theorem TermCaller.refuted_onto (k : TermCaller) : k.refuted.onto B = k.home.direct B := by
  cases k with
  | observer o => cases o <;> rfl
  | _ => rfl

theorem TermCaller.confirmed_onto (k : TermCaller) : k.confirmed.onto B = k.home.direct B := by
  cases k with
  | observer o => cases o <;> rfl
  | _ => rfl

theorem TermCaller.published_onto (k : TermCaller) : k.published.onto B = k.home.direct B := by
  cases k with
  | observer o => cases o <;> rfl
  | _ => rfl

theorem IdleCaller.decided_onto (r : IdleRead) (k : IdleCaller) (b : Bool) :
    (k.decided b).onto B = (Pc.idle r k).onto B := by
  cases k with
  | term k =>
    cases b
    · exact k.refuted_onto
    · exact k.confirmed_onto
  | _ => cases b <;> rfl

theorem idleStep_onto (sh : Shared) (r : IdleRead) (k : IdleCaller) :
    (idleStep sh r k).onto B = (Pc.idle r k).onto B := by
  unfold idleStep
  split
  · split
    · cases k <;> rfl
    · exact k.decided_onto r true
  · exact k.decided_onto r false

theorem step_posted {p : Pc} (r : Recorded sh (p.onto B)) (h : step sh c p = some (sh', p'))
    (hg : ∀ e, p' = .panicked e → ∃ c, e = .counter c) : Posted sh' p' B := by
  cases p with
  | submit j p => exact submitStep_posted r h hg
  | spawn p k => exact spawnStep_posted r h hg
  | prestart => exact prestartStep_posted r h
  | worker p => exact workerStep_posted r h
  | shutdown p => exact shutdownStep_posted r h
  | stop p => exact stopStep_posted r h
  | ticket j p => exact ticketStep_posted r h
  | cancel p k => exact cancelStep_posted r h
  | join p => exact joinStep_posted r h
  | observe p => exact observeStep_posted r h
  | setter p => exact setterStep_posted r h
  | prestartUnlock =>
    cases h
    exact ⟨nofun, r.law, r.linked⟩
  | notifyLock k =>
    obtain ⟨s, hs, h⟩ := Option.map_eq_some_iff.mp h
    obtain ⟨-, rfl⟩ := sh.lock_eq_some hs
    cases h
    exact ⟨nofun, r.law, r.linked⟩
  | notifyAll k =>
    cases h
    refine ⟨fun c => k.resume_sound _, ?_⟩
    rw [k.resume_onto]
    exact ⟨r.law, r.linked⟩
  | term k =>
    simp only [step] at h
    split at h
    · cases h
      exact ⟨nofun, r⟩
    · cases h
      refine ⟨fun c => k.refuted_sound _, ?_⟩
      rw [k.refuted_onto]
      exact r
  | publish k =>
    cases h
    refine ⟨fun c => k.published_sound _, ?_⟩
    rw [k.published_onto]
    exact ⟨r.law, r.linked⟩
  | idle rd k =>
    cases h
    refine ⟨fun c => idleStep_sound sh rd k _, ?_⟩
    rw [idleStep_onto]
    exact r
  | prestarted _ => cases h
  | panicked _ => cases h

end ThreadPools.Dynamic
