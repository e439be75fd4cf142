import ThreadPools.Dynamic.Relief
import ThreadPools.Dynamic.Cancellation

/-! # Completeness of `stop` and the attribution of cancellations -/
namespace ThreadPools.Dynamic
open Interleaving
open Move (call)

variable {sh sh' : Shared} {p p' q : Pc} {ps rest : Multiset Pc} {c : Outcome} {j : JobId}

inductive StopStage where
  | closing | stored | waited | drained
  deriving DecidableEq

def StopPc.stage : StopPc → StopStage
  | .close | .notifyCapacity | .storeStop => .closing
  | .lockState | .readInflight | .addWaiter | .recheck | .park | .parked _ => .stored
  | .subWaiter | .readRunning | .lockQueue _ | .drain _ _ | .drainWithdraw _ _ _ | .drainCancelling _ _ _ => .waited
  | .unlockQueue _ _ | .notifyAll _ _ | .next _ _ | .finalNotify _ | .returned _ => .drained

def Pc.directStopStage : Pc → StopStage
  | .stop p => p.stage
  | .cancel _ (.stop _ _ _) => .drained
  | _ => .closing

def Pc.stopStage (p : Pc) : StopStage := p.home.directStopStage

def Emptied (sh : Shared) : Prop := sh.acct.Sealed 1 ∧ sh.globalQueue = []

def StopStage.Knows (sh : Shared) : StopStage → Prop
  | .closing => True
  | .stored => sh.stopNow = true
  | .waited => sh.stopNow = true ∧ sh.acct.Sealed 1
  | .drained => sh.stopNow = true ∧ Emptied sh

theorem Emptied.step (he : Emptied sh) (inv : Consistent False False sh (p ::ₘ rest))
    (h : step sh c p = some (sh', p')) : Emptied sh' := by
  have hin : sh.acct.inflightCount = 0 := he.1.2 .inflight (by decide)
  refine ⟨sealed_step he.1 (step_effect h) inv.gauged inv.onto, ?_⟩
  refine List.eq_nil_iff_forall_not_mem.mpr fun j hj => ?_
  rcases (step_work h).queue j hj with hq | rfl
  · rw [he.2] at hq
    cases hq
  · have hle := inv.gauged.le_value (g := .inflight) nofun
    simp [Gauge.weight, Gauge.value, Pc.home, Pc.inside, SubmitPc.inside, hin] at hle

theorem StopStage.Knows.step {s : StopStage} (hk : s.Knows sh) (inv : Consistent False False sh (p ::ₘ rest))
    (h : step sh c p = some (sh', p')) : s.Knows sh' := by
  have hstop := (step_work h).stopNow
  cases s with
  | closing => trivial
  | stored => exact hstop hk
  | waited => exact ⟨hstop hk.1, sealed_step hk.2 (step_effect h) inv.gauged inv.onto⟩
  | drained => exact ⟨hstop hk.1, hk.2.step inv h⟩

theorem steady_stopStage : Steady Pc.directStopStage :=
  ⟨fun _ _ => rfl, rfl, fun _ => rfl, rfl, rfl⟩

theorem sealed_of_zero (hc : sh.acct.admission.closed = true) (hz : ¬ 0 < sh.acct.inflightCount) :
    sh.acct.Sealed 1 := by
  refine ⟨hc, fun r hr => ?_⟩
  cases r with
  | inflight => exact Nat.eq_zero_of_not_pos hz
  | _ => simp [IdleRead.rank] at hr

theorem stopStage_own (inv : Consistent False False sh (p ::ₘ rest)) (hi : Informed sh p)
    (hk : p.stopStage.Knows sh) (h : step sh c p = some (sh', p')) : p'.stopStage.Knows sh' := by
  have hn := inv.sound_step h
  have keep := hk.step inv h
  by_cases hsh : p.inShared = true
  · rw [Pc.stopStage, steady_stopStage.step hsh h]
    exact keep
  have hclosed : p.issued = true → sh.acct.admission.closed = true := fun hp => inv.closed (hi.issued hp)
  -- No other call becomes a stop call.
  by_cases hcall : p.call = some .stop
  case neg =>
    have hcall' : p'.call ≠ some .stop := by rwa [(step_work h).caller hn]
    have hout : p'.stopStage = .closing := by
      unfold Pc.stopStage Pc.directStopStage
      unfold Pc.call Pc.directCall at hcall'
      split
      · rename_i q hq
        simp [hq] at hcall'
      · rename_i hq
        simp [hq, CancelCaller.call] at hcall'
      · rfl
    rw [hout]
    trivial
  cases p with
  | stop p =>
    cases p with
    | close | notifyCapacity =>
      cases h
      trivial
    | storeStop =>
      cases h
      exact rfl
    | lockState =>
      obtain ⟨s, hs, h⟩ := Option.map_eq_some_iff.mp h
      obtain ⟨-, rfl⟩ := sh.lock_eq_some hs
      cases hl : sh.state.lifecycle <;> simp only [hl] at h <;> cases h
      all_goals exact rfl
    | readInflight | recheck =>
      simp only [step, stopStep] at h
      split at h <;> cases h
      · exact hk
      · exact ⟨hk, sealed_of_zero (hclosed rfl) ‹_›⟩
    | drain running jobs =>
      simp only [step, stopStep] at h
      split at h
      · cases h
        exact ⟨hk.1, hk.2, ‹_›⟩
      · split at h <;> cases h
        all_goals exact keep
    | next jobs report =>
      cases jobs <;> cases h
      all_goals exact keep
    | _ =>
      simp only [step, stopStep, Shared.lock, Shared.lockQueue, Shared.withLock, Shared.lower] at h
      repeat' split at h
      all_goals cases h
      all_goals first | exact keep | exact absurd rfl (hn _)
  | cancel p k =>
    cases k with
    | stop i jobs report =>
      cases p
      all_goals simp only [step, cancelStep, Shared.lower] at h
      all_goals repeat' split at h
      all_goals cases h
      all_goals first | exact keep | exact absurd rfl (hn _)
    | _ => cases hcall
  | spawn p k => cases k <;> cases hcall
  | _ => first | cases hcall | exact absurd rfl hsh

section
variable {config : ThreadPoolConfig} {tickets : JobId → Bool} {ok : Machine.Guard Shared Pc Outcome}
variable {s t u : State Shared Pc} {i : ℕ}

theorem stopStage_of_run (h : machine.Run ok (init config tickets) t) :
    ∀ p ∈ t.actors, p.stopStage.Knows t.shared := by
  refine knowledge_along (I := fun sh ps => Consistent False False sh ps ∧ ∀ p ∈ ps, Informed sh p)
    (K := fun sh p => p.stopStage.Knows sh)
    (fun u hu => ⟨Consistent.of_free_run hu.free, fun p hp => informed_of_run hu p hp⟩) ?_ ?_ (fun _ => trivial) ?_ h
    (List.forall_mem_nil _)
  · exact fun sh p rest c sh' p' hI hk _ hm => stopStage_own hI.1 (hI.2 p (Multiset.mem_cons_self p rest)) hk hm
  · exact fun sh p rest c sh' p' q hI _ hk _ hm => hk.step hI.1 hm
  · intro sh ps op sh' p _ hm
    have hsame : ∀ s : StopStage, s.Knows sh → s.Knows sh' := by
      intro s hk
      rw [invoke_same hm]
      cases s <;> exact hk
    refine ⟨?_, fun q _ hk => hsame _ hk⟩
    cases op with
    | submit j caller | cancelQueued j caller =>
      simp only [invoke] at hm
      split at hm <;> cases hm
      trivial
    | _ =>
      cases hm
      trivial

/-- What a stop call has found stays so. -/
theorem knows_along (hs : machine.Run ok (init config tickets) s) (hp : p ∈ s.actors)
    (h : machine.Run ok s t) : p.stopStage.Knows t.shared := by
  refine invariant_along (J := fun sh _ => p.stopStage.Knows sh) hs ?_ ?_ h (stopStage_of_run hs p hp)
  · exact fun sh p rest c sh' p' inv hk _ hm => hk.step inv hm
  · intro sh ps op sh' q _ hk hm
    rw [invoke_same hm]
    generalize p.stopStage = stage at hk ⊢
    cases stage <;> exact hk

/-- Nothing is published after a drain. -/
theorem submitted_along (hs : machine.Run ok (init config tickets) s) (he : Emptied s.shared)
    (h : machine.Run ok s t) : t.shared.acct.count .submitted = s.shared.acct.count .submitted := by
  refine (invariant_along (J := fun sh _ => Emptied sh ∧
    sh.acct.count .submitted = s.shared.acct.count .submitted) hs ?_ ?_ h ⟨he, rfl⟩).2
  · intro sh p rest c sh' p' inv ⟨he, hk⟩ _ hm
    refine ⟨he.step inv hm, ?_⟩
    have hup := (step_effect hm).count .submitted
    have hdown := (step_relief hm).count .submitted
    have hlow : p.lowers ≠ some .submitted := by
      intro hp
      unfold Pc.lowers at hp
      split at hp <;> cases hp
    have hraise : p.raises ≠ some .submitted := by
      intro hp
      have hin : sh.acct.inflightCount = 0 := he.1.2 .inflight (by decide)
      have hle := inv.gauged.le_value (g := .inflight) nofun
      unfold Pc.raises at hp
      split at hp <;> cases hp
      simp [Gauge.weight, Gauge.value, Pc.home, Pc.inside, SubmitPc.inside, hin] at hle
    rcases hup with hup | hup
    · rcases hdown with hdown | hdown
      · omega
      · exact absurd hdown hlow
    · exact absurd hup hraise
  · intro sh ps op sh' p _ hk hm
    rw [invoke_same hm]
    exact hk

end

def Pc.directTodo : Pc → Option (List JobId × StopReport)
  | .stop (.unlockQueue running jobs) => some (jobs, ⟨jobs.length, running, jobs.length⟩)
  | .stop (.notifyAll jobs report) | .stop (.next jobs report) => some (jobs, report)
  | .stop (.finalNotify report) | .stop (.returned report) => some ([], report)
  | .cancel _ (.stop j jobs report) => some (j :: jobs, report)
  | _ => none

/-- The drained jobs that a stop call has still to finish, and its report. -/
def Pc.todo (p : Pc) : Option (List JobId × StopReport) := p.home.directTodo

theorem steady_todo : Steady Pc.directTodo :=
  ⟨fun _ _ => rfl, rfl, fun _ => rfl, rfl, rfl⟩

/-- A stop call drops a job from its list when the job is cancelled. -/
theorem todo_own {jobs : List JobId} {report : StopReport} (h : step sh c p = some (sh', p'))
    (hn : ∀ e, p' ≠ .panicked e) (hp : p.todo = some (jobs, report)) :
    p'.todo = some (jobs, report) ∨
      ∃ i rest, jobs = i :: rest ∧ p = .cancel .done (.stop i rest report) ∧ p'.todo = some (rest, report) := by
  by_cases hsh : p.inShared = true
  · left
    rw [Pc.todo, steady_todo.step hsh h]
    exact hp
  cases p with
  | stop p =>
    cases p with
    | unlockQueue running jobs | notifyAll jobs report =>
      cases h
      exact Or.inl hp
    | next jobs report =>
      cases jobs <;> cases h
      all_goals exact Or.inl hp
    | finalNotify report =>
      obtain ⟨s, hs, h⟩ := Option.map_eq_some_iff.mp h
      cases h
      exact Or.inl hp
    | returned report => cases h
    | _ => cases hp
  | cancel p k =>
    cases k with
    | stop i rest report =>
      cases hp
      cases p with
      | done =>
        cases h
        exact Or.inr ⟨i, rest, rfl, rfl, rfl⟩
      | _ =>
        simp only [step, cancelStep, Shared.lower] at h
        repeat' split at h
        all_goals cases h
        all_goals first | exact Or.inl rfl | exact absurd rfl (hn _)
    | _ => cases hp
  | _ => first | cases hp | exact absurd rfl hsh

section
variable {config : ThreadPoolConfig} {tickets : JobId → Bool} {ok : Machine.Guard Shared Pc Outcome}
variable {s t u : State Shared Pc} {i : ℕ}

/-- Every drained job is on the list of the stop call or cancelled to the last update. -/
theorem drained_accounted {running : ℕ} {jobs : List JobId} {report : StopReport}
    (hs : machine.Run ok (init config tickets) s) (hp : s.actors[i]? = some (.stop (.unlockQueue running jobs)))
    (h : machine.Run ok s t) (hr : t.actors[i]? = some (.stop (.returned report))) :
    report = ⟨jobs.length, running, jobs.length⟩ ∧
      ∀ j ∈ jobs, t.shared.history j = Phase.history .cancelled := by
  have hend : ∃ q, t.actors[i]? = some q ∧ ∃ left, q.todo = some (left, ⟨jobs.length, running, jobs.length⟩) ∧
      ∀ j ∈ jobs, j ∈ left ∨ t.shared.history j = Phase.history .cancelled := by
    refine h.tracks (K := fun u q => ∃ left, q.todo = some (left, ⟨jobs.length, running, jobs.length⟩) ∧
      ∀ j ∈ jobs, j ∈ left ∨ u.shared.history j = Phase.history .cancelled) ?_ ?_ hp
      ⟨jobs, rfl, fun j hj => Or.inl hj⟩
    · rintro u v q c r hu hf hq hstep hv ⟨left, hleft, hjobs⟩
      obtain ⟨x, hx, rfl⟩ := Option.map_eq_some_iff.mp hstep
      have hrun := hs.trans hu
      obtain ⟨rest, hrest⟩ := Multiset.exists_cons_of_mem (Multiset.mem_coe.mpr (List.mem_of_getElem? hq))
      have att := Attended.of_run hrun
      rw [hrest] at att
      have hkeep : ∀ j, u.shared.history j = Phase.history .cancelled → v.shared.history j = Phase.history .cancelled :=
        fun j hh => final_along hrun Phase.final_cancelled hh (.single hf)
      rcases todo_own hx (att.consistent.sound_step hx) hleft with hsame | ⟨k, rest', rfl, rfl, hdone⟩
      · exact ⟨left, hsame, fun j hj => (hjobs j hj).imp_right (hkeep j)⟩
      · refine ⟨rest', hdone, fun j hj => ?_⟩
        rcases hjobs j hj with hm | hh
        · rcases List.mem_cons.mp hm with rfl | hm
          · exact Or.inr (hkeep j (att.traced (Multiset.mem_cons_self (j, Phase.cancelled) _)))
          · exact Or.inl hm
        · exact Or.inr (hkeep j hh)
    · rintro u v q hu hf hq ⟨left, hleft, hjobs⟩
      exact ⟨left, hleft, fun j hj => (hjobs j hj).imp_right fun hh =>
        final_along (hs.trans hu) Phase.final_cancelled hh (.single hf)⟩
  obtain ⟨q, hq, left, hleft, hjobs⟩ := hend
  rw [hr] at hq
  cases hq
  cases hleft
  exact ⟨rfl, fun j hj => (hjobs j hj).resolve_left (List.not_mem_nil)⟩

end

def StopPc.reported : StopPc → ℕ
  | .drain _ jobs | .unlockQueue _ jobs => jobs.length
  | .drainWithdraw _ jobs _ | .drainCancelling _ jobs _ => jobs.length + 1
  | .notifyAll _ report | .next _ report | .finalNotify report | .returned report => report.cancelled
  | _ => 0

def Pc.directReported : Pc → ℕ
  | .stop p => p.reported
  | .cancel _ (.stop _ _ report) => report.cancelled
  | _ => 0

/-- The field `cancelled` of a stop call's report, from the drain on. -/
def Pc.reported (p : Pc) : ℕ := p.home.directReported

def CancelPc.counted : CancelPc → Bool
  | .call | .running | .addCancelled => false
  | .subCancelling | .subSlot | .notifyCapacity | .done => true

def StopPc.cancels : StopPc → ℕ
  | .drain _ jobs | .unlockQueue _ jobs | .notifyAll jobs _ | .next jobs _ => jobs.length
  | .drainWithdraw _ jobs _ | .drainCancelling _ jobs _ => jobs.length + 1
  | _ => 0

def Pc.directCancels : Pc → ℕ
  | .submit _ p => (decide (p.stage = .locked)).toNat
  | .stop p => p.cancels
  | .ticket _ .withdraw | .ticket _ .cancelling | .ticket _ .unlockQueue => 1
  | .cancel p k => (!p.counted).toNat + k.rest.length
  | _ => 0

/-- How many jobs the actor is cancelling: it owns their callbacks, and `cancelled` does not count them yet. -/
def Pc.cancels (p : Pc) : ℕ := p.home.directCancels

/-- The submitter has honoured the request for cancellation. -/
def Shared.heard (sh : Shared) (j : JobId) : Bool :=
  (sh.jobs j).entry = some .cancelling || (sh.jobs j).entry = some .cancelled

def Pc.directWins (heard : JobId → Bool) : Pc → ℕ
  | .ticket j .waiting => (heard j).toNat
  | .ticket _ p => p.won.toNat
  | .cancel _ (.ticket _) => 1
  | _ => 0

/-- A call of `cancel_queued` that has won: it has returned `true` or will do so. -/
def Pc.wins (heard : JobId → Bool) (p : Pc) : ℕ := p.home.directWins heard

/-- Every cancellation is attributed to one stop call or to one call of `cancel_queued`. -/
def Attributed (sh : Shared) (ps : Multiset Pc) : Prop :=
  sh.acct.count .cancelled + total Pc.cancels ps = total Pc.reported ps + total (Pc.wins sh.heard) ps

theorem steady_cancels : Steady Pc.directCancels :=
  ⟨fun _ _ => rfl, rfl, fun _ => rfl, rfl, rfl⟩

theorem steady_reported : Steady Pc.directReported :=
  ⟨fun _ _ => rfl, rfl, fun _ => rfl, rfl, rfl⟩

theorem steady_wins {heard : JobId → Bool} : Steady (Pc.directWins heard) :=
  ⟨fun _ _ => rfl, rfl, fun _ => rfl, rfl, rfl⟩

theorem cancelled_same (hp : ∀ k, p ≠ .cancel .addCancelled k) (h : step sh c p = some (sh', p')) :
    sh'.acct.count .cancelled = sh.acct.count .cancelled := by
  have hlow : p.lowers ≠ some .cancelled := by
    intro hl
    unfold Pc.lowers at hl
    split at hl <;> cases hl
  have hraise : p.raises ≠ some .cancelled := by
    intro hr
    unfold Pc.raises at hr
    split at hr <;> first | (cases hr; done) | exact absurd rfl (hp _)
  rcases (step_effect h).count .cancelled with hup | hup
  · rcases (step_relief h).count .cancelled with hdown | hdown
    · omega
    · exact absurd hdown hlow
  · exact absurd hup hraise

def Matched (sh : Shared) (p : Pc) (sh' : Shared) (p' : Pc) : Prop :=
  p'.cancels + (p.reported + p.wins sh.heard) = p.cancels + (p'.reported + p'.wins sh'.heard)

theorem submitStep_matched {p : SubmitPc} (h : submitStep sh j c p = some (sh', p')) (hn : ∀ e, p' ≠ .panicked e)
    (hh : p = .decideEntry → ∀ owner, (sh.jobs j).entry ≠ some (.accepting owner true)) :
    Matched sh (.submit j p) sh' p' := by
  cases p with
  | decideEntry =>
    simp only [submitStep] at h
    split at h <;> cases h
    · exact absurd ‹_› (hh rfl _)
    · rfl
  | leave result =>
    simp only [submitStep] at h
    split at h <;> cases h
    · split <;> rfl
    · exact absurd rfl (hn _)
  | _ =>
    simp only [submitStep, Shared.lock, Shared.lockQueue, Shared.withLock, Shared.lower] at h
    repeat' split at h
    all_goals cases h
    all_goals first | rfl | exact absurd rfl (hn _)

/-- A drained job goes from the stop call's list to its cancellation, and the report is fixed before. -/
theorem stopStep_matched {p : StopPc} (h : stopStep sh p = some (sh', p')) (hn : ∀ e, p' ≠ .panicked e) :
    Matched sh (.stop p) sh' p' := by
  cases p with
  | lockState =>
    obtain ⟨s, hs, h⟩ := Option.map_eq_some_iff.mp h
    cases hl : s.state.lifecycle <;> simp only [hl] at h <;> cases h
    all_goals rfl
  | readInflight | recheck =>
    simp only [stopStep] at h
    split at h <;> cases h
    all_goals rfl
  | drain running jobs =>
    simp only [stopStep] at h
    repeat' split at h
    all_goals cases h
    all_goals
      simp only [Matched, Pc.cancels, Pc.reported, Pc.wins, Pc.home, Pc.directCancels, Pc.directReported,
        Pc.directWins, StopPc.cancels, StopPc.reported]
      try omega
  | drainCancelling running jobs i =>
    cases h
    simp [Matched, Pc.cancels, Pc.reported, Pc.wins, Pc.home, Pc.directCancels, Pc.directReported, Pc.directWins,
      StopPc.cancels, StopPc.reported]
  | next jobs report =>
    cases jobs <;> cases h
    · rfl
    · simp only [Matched, Pc.cancels, Pc.reported, Pc.wins, Pc.home, Pc.directCancels, Pc.directReported,
        Pc.directWins, StopPc.cancels, StopPc.reported, CancelPc.counted, CancelCaller.rest, Bool.not_false,
        Bool.toNat_true, List.length_cons]
      omega
  | _ =>
    simp only [stopStep, Shared.lock, Shared.lockQueue, Shared.withLock, Shared.lower] at h
    repeat' split at h
    all_goals cases h
    all_goals first | rfl | exact absurd rfl (hn _)

/-- Who waits for the submitter has won from the moment on at which the submitter has heard it. -/
theorem ticketStep_matched {p : TicketPc} (h : ticketStep sh j p = some (sh', p')) :
    Matched sh (.ticket j p) sh' p' := by
  cases p with
  | check caller =>
    simp only [ticketStep] at h
    repeat' split at h
    all_goals cases h
    all_goals first | rfl | skip
    simp [Matched, Pc.cancels, Pc.reported, Pc.wins, Pc.home, Pc.directCancels, Pc.directReported, Pc.directWins,
      TicketPc.won, Shared.heard, Shared.setEntry]
  | waiting =>
    simp only [ticketStep] at h
    split at h
    · cases h
    · split at h <;> cases h
      · rfl
      · rfl
      · rename_i ha hc
        have hc : (sh.jobs j).entry ≠ some .cancelling := hc
        by_cases he : (sh.jobs j).entry = some .cancelled
        · simp [Matched, Pc.cancels, Pc.reported, Pc.wins, Pc.home, Pc.directCancels, Pc.directReported,
            Pc.directWins, TicketPc.won, Shared.heard, he]
        · simp [Matched, Pc.cancels, Pc.reported, Pc.wins, Pc.home, Pc.directCancels, Pc.directReported,
            Pc.directWins, TicketPc.won, Shared.heard, he, hc]
  | _ =>
    simp only [ticketStep, Shared.lockQueue, Shared.lower] at h
    repeat' split at h
    all_goals cases h
    all_goals rfl

theorem cancelStep_matched {p : CancelPc} {k : CancelCaller} (hp : p ≠ .addCancelled)
    (h : cancelStep sh k p = some (sh', p')) (hn : ∀ e, p' ≠ .panicked e) : Matched sh (.cancel p k) sh' p' := by
  cases p with
  | addCancelled => exact absurd rfl hp
  | done =>
    cases k <;> cases h
    · rfl
    · rfl
    · simp only [Matched, Pc.cancels, Pc.reported, Pc.wins, Pc.home, Pc.directCancels, Pc.directReported,
        Pc.directWins, StopPc.cancels, StopPc.reported, CancelPc.counted, CancelCaller.rest, Bool.not_true,
        Bool.toNat_false]
      omega
  | _ =>
    simp only [cancelStep, Shared.lower] at h
    repeat' split at h
    all_goals cases h
    all_goals first | rfl | (cases k <;> rfl) | exact absurd rfl (hn _)

theorem workerStep_matched {p : WorkerPc} (h : workerStep sh c p = some (sh', p')) :
    Matched sh (.worker p) sh' p' := by
  cases p
  all_goals simp only [workerStep, Shared.lock, Shared.lockQueue, Shared.lower] at h
  all_goals repeat' split at h
  all_goals first | (simp only [Option.map_some] at h; (repeat' split at h) <;> cases h) | cases h
  all_goals rfl

theorem shared_matched (hp : p.inShared = true) (h : step sh c p = some (sh', p')) : Matched sh p sh' p' := by
  have hheard : sh'.heard = sh.heard := by
    funext j
    simp only [Shared.heard, (shared_same hp h).1]
  rw [Matched, hheard, Pc.cancels, Pc.reported, Pc.wins, Pc.wins, Pc.reported, Pc.cancels,
    steady_cancels.step hp h, steady_reported.step hp h, steady_wins.step hp h]

/-- Every step but the count itself keeps the two sides matched, except that the submitter that honours a request
takes a job for the call that waits. -/
theorem step_matched (h : step sh c p = some (sh', p')) (hn : ∀ e, p' ≠ .panicked e)
    (hadd : ∀ k, p ≠ .cancel .addCancelled k)
    (hh : ∀ j owner, p = .submit j .decideEntry → (sh.jobs j).entry ≠ some (.accepting owner true)) :
    Matched sh p sh' p' := by
  by_cases hsh : p.inShared = true
  · exact shared_matched hsh h
  cases p with
  | submit j p =>
    refine submitStep_matched h hn ?_
    rintro rfl owner
    exact hh j owner rfl
  | stop p => exact stopStep_matched h hn
  | ticket j p => exact ticketStep_matched h
  | cancel p k =>
    refine cancelStep_matched ?_ h hn
    rintro rfl
    exact hadd k rfl
  | worker p => exact workerStep_matched h
  | spawn p k =>
    cases p <;> cases k <;> simp only [step, spawnStep] at h
    all_goals repeat' split at h
    all_goals cases h
    all_goals rfl
  | prestart =>
    obtain ⟨s, hs, h⟩ := Option.map_eq_some_iff.mp h
    repeat' split at h
    all_goals cases h
    all_goals rfl
  | shutdown p =>
    cases p
    all_goals simp only [step, shutdownStep, Shared.lock] at h
    all_goals repeat' split at h
    all_goals cases h
    all_goals rfl
  | join p =>
    cases p
    all_goals simp only [step, joinStep, Shared.lock] at h
    all_goals repeat' split at h
    all_goals cases h
    all_goals rfl
  | observe p =>
    cases p with
    | lockState o =>
      obtain ⟨s, hs, h⟩ := Option.map_eq_some_iff.mp h
      cases h
      cases o <;> rfl
    | _ =>
      simp only [step, observeStep, Shared.lock] at h
      repeat' split at h
      all_goals cases h
      all_goals rfl
  | setter p =>
    cases p
    all_goals simp only [step, setterStep, Shared.withLock] at h
    all_goals repeat' split at h
    all_goals cases h
    all_goals rfl
  | prestartUnlock =>
    cases h
    rfl
  | prestarted _ => cases h
  | panicked _ => cases h
  | _ => exact absurd rfl hsh

/-- What the acting call contributes to both sides of `Attributed`. -/
theorem attribution_own (h : step sh c p = some (sh', p')) (hn : ∀ e, p' ≠ .panicked e)
    (hh : ∀ j owner, p = .submit j .decideEntry → (sh.jobs j).entry ≠ some (.accepting owner true)) :
    sh'.acct.count .cancelled + p'.cancels + (p.reported + p.wins sh.heard) =
      sh.acct.count .cancelled + p.cancels + (p'.reported + p'.wins sh'.heard) := by
  by_cases hadd : ∃ k, p = .cancel .addCancelled k
  · obtain ⟨k, rfl⟩ := hadd
    cases h
    have hcount : (sh.raise .cancelled).acct.count .cancelled = sh.acct.count .cancelled + 1 := by
      simp [Shared.raise, Shared.setAcct]
    rw [hcount]
    cases k <;> simp [Pc.cancels, Pc.reported, Pc.wins, Pc.home, Pc.directCancels, Pc.directReported,
      Pc.directWins, CancelPc.counted] <;> omega
  · have hmatch := step_matched h hn (fun k hk => hadd ⟨k, hk⟩) hh
    unfold Matched at hmatch
    have hsame := cancelled_same (fun k hk => hadd ⟨k, hk⟩) h
    omega

/-- A request is honoured by the submitter at its decision and by nobody else. -/
theorem heard_step (tk : Ticketed j sh (p ::ₘ rest)) (h : step sh c p = some (sh', p')) :
    sh'.heard j = sh.heard j ∨ p = .submit j .decideEntry ∧
      (∃ owner, (sh.jobs j).entry = some (.accepting owner true)) ∧ (sh'.jobs j).entry = some .cancelling := by
  have fits : p.call = some (.submit j) → p.stage.Admits (sh.jobs j) := fun hp =>
    (tk.fits p (Multiset.mem_cons_self p rest) hp).1
  rcases (step_work h).entry j with he | he
  · left
    simp only [Shared.heard, he]
  unfold Shared.heard
  generalize hold : (sh.jobs j).entry = e at he
  generalize (sh'.jobs j).entry = e' at he
  cases he with
  | begin ht =>
    have ha := fits rfl
    simp only [Pc.stage, Pc.home, Pc.directStage, SubmitPc.stage, Stage.Admits, ht, if_true, hold] at ha
    rw [ha]
    exact Or.inl rfl
  | reject ht =>
    have ha := fits rfl
    simp only [Pc.stage, Pc.home, Pc.directStage, SubmitPc.stage, Stage.Admits, ht, if_true, hold] at ha
    obtain ⟨b, rfl⟩ := ha
    exact Or.inl (by simp)
  | ask => exact Or.inl (by simp)
  | honour => exact Or.inr ⟨rfl, ⟨_, rfl⟩, rfl⟩
  | publish he =>
    have ha := fits rfl
    simp only [Pc.stage, Pc.home, Pc.directStage, SubmitPc.stage, Stage.Admits, hold] at ha
    split at ha
    · obtain ⟨b, rfl⟩ := ha
      exact Or.inl (by simp)
    · rw [ha]
      exact Or.inl rfl
  | take => exact Or.inl (by simp)
  | settle =>
    have ha : (sh.jobs j).entry = some .cancelling := fits rfl
    rw [hold] at ha
    rw [ha]
    exact Or.inl rfl

/-- When the request for job `j` is honoured, the calls that wait for it win. -/
theorem wins_heard {f g : JobId → Bool} (hf : ∀ i, i ≠ j → g i = f i) (hj : f j = false) (hg : g j = true) :
    total (Pc.wins g) ps = total (Pc.wins f) ps + total (Pc.asks j) ps := by
  rw [← total_sum]
  refine total_congr fun p _ => ?_
  unfold Pc.wins Pc.directWins Pc.asks Pc.directAsks
  cases p.home with
  | ticket i q =>
    cases q with
    | waiting =>
      by_cases hi : i = j
      · subst hi
        simp [hj, hg]
      · simp [hf i hi, hi]
    | _ => rfl
  | cancel q k => cases k <;> rfl
  | _ => rfl

theorem Attributed.step (at' : Attributed sh (p ::ₘ rest)) (att : Attended sh (p ::ₘ rest))
    (tk : ∀ j, Ticketed j sh (p ::ₘ rest)) (h : step sh c p = some (sh', p')) :
    Attributed sh' (p' ::ₘ (↑(spawned p c) + rest)) := by
  have hn := att.consistent.sound_step h
  have hnew : ∀ f : JobId → Bool, total Pc.cancels (↑(spawned p c) : Multiset Pc) = 0 ∧
      total Pc.reported (↑(spawned p c) : Multiset Pc) = 0 ∧
      total (Pc.wins f) (↑(spawned p c) : Multiset Pc) = 0 := by
    intro f
    refine ⟨?_, ?_, ?_⟩
    all_goals
      refine total_eq_zero_iff.mpr fun q hq => ?_
      rw [Consistent.spawned_fresh (Multiset.mem_coe.mp hq)]
      rfl
  obtain ⟨hc, hr, hw⟩ := hnew sh'.heard
  simp only [Attributed, total_cons, total_add, hc, hr, hw, Nat.zero_add] at at' ⊢
  by_cases hh : ∃ j owner, p = .submit j .decideEntry ∧ (sh.jobs j).entry = some (.accepting owner true)
  case neg =>
    have hown := attribution_own h hn fun j owner hp he => hh ⟨j, owner, hp, he⟩
    have hrest : total (Pc.wins sh'.heard) rest = total (Pc.wins sh.heard) rest := by
      have hsame : sh'.heard = sh.heard := by
        funext i
        rcases heard_step (tk i) h with hi | ⟨hp, ⟨owner, ho⟩, -⟩
        · exact hi
        · exact absurd ⟨i, owner, hp, ho⟩ hh
      rw [hsame]
    omega
  obtain ⟨j, owner, rfl, he⟩ := hh
  have htab := (tk j).table
  simp only [total_cons] at htab
  rw [he] at htab
  have hask : (Pc.submit j .decideEntry).asks j = 0 := rfl
  have hf : sh.heard j = false := by simp [Shared.heard, he]
  simp only [step, submitStep, he] at h
  cases h
  have hrest : total (Pc.wins
      (sh.setJob j fun job => { job with entry := some .cancelling, entryLocked := true }).heard) rest =
      total (Pc.wins sh.heard) rest + total (Pc.asks j) rest := wins_heard
    (fun i hi => by simp [Shared.heard, Shared.setJob_jobs_ne _ _ hi]) hf (by simp [Shared.heard])
  have hone : total (Pc.asks j) rest = 1 := by
    have := htab.1
    omega
  have hp : (Pc.submit j .decideEntry).cancels = 0 ∧ (Pc.submit j .decideEntry).reported = 0 ∧
      (Pc.submit j .decideEntry).wins sh.heard = 0 := ⟨rfl, rfl, rfl⟩
  have hp' : ∀ f, (Pc.submit j .requestedWithdraw).cancels = 1 ∧ (Pc.submit j .requestedWithdraw).reported = 0 ∧
      (Pc.submit j .requestedWithdraw).wins f = 0 := fun f => ⟨rfl, rfl, rfl⟩
  rw [hp.1, hp.2.1, hp.2.2] at at'
  rw [(hp' sh.heard).1, (hp' sh.heard).2.1, (hp' _).2.2, hrest, hone]
  show sh.acct.count .cancelled + _ = _
  omega

/-- Who removed an entry from the queue is decided for good. -/
theorem taken_step (tk : Ticketed j sh (p ::ₘ rest)) (att : Attended sh (p ::ₘ rest))
    (he : (sh.jobs j).entry = some .taken) (h : step sh c p = some (sh', p')) :
    (sh'.jobs j).entry = some .taken ∧
      total (Pc.won j) (p' ::ₘ (↑(spawned p c) + rest)) = total (Pc.won j) (p ::ₘ rest) := by
  have hn := att.consistent.sound_step h
  have fits : p.call = some (.submit j) → p.stage = .given := by
    intro hp
    have ha := (tk.fits p (Multiset.mem_cons_self p rest) hp).1
    cases hs : p.stage with
    | given => rfl
    | accepting =>
      rw [hs] at ha
      simp only [Stage.Admits, he] at ha
      split at ha
      · obtain ⟨b, hb⟩ := ha
        cases hb
      · cases ha
    | _ =>
      rw [hs] at ha
      simp only [Stage.Admits, he] at ha
      first | cases ha | (split at ha <;> cases ha)
  constructor
  · rcases (step_work h).entry j with hs | hs
    · rw [hs]
      exact he
    · rw [he] at hs
      generalize (sh'.jobs j).entry = e' at hs
      cases hs with
      | begin | reject | publish | settle => cases fits rfl
  · rw [total_cons, total_cons, total_add, (spawned_bids (j := j) (p := p) (c := c)).2, Nat.zero_add]
    by_cases hp : p.call = some (.ticket j)
    case neg =>
      rw [(Pc.no_bid hp).2, (Pc.no_bid (j := j) (p := p') (by rwa [(step_work h).caller hn])).2]
    cases bid_own hp h hn with
    | hold _ _ hw => rw [hw]
    | ask hold => simp [he] at hold
    | win hold => simp [he] at hold
    | answer => simp [he, Pc.won, Pc.home, Pc.directWon, TicketPc.won]

section
variable {config : ThreadPoolConfig} {tickets : JobId → Bool} {ok : Machine.Guard Shared Pc Outcome}
variable {s t u : State Shared Pc}

theorem Attributed.of_run (h : machine.Run ok (init config tickets) t) : Attributed t.shared t.actors := by
  refine induction_along (I := fun sh ps => Attended sh ps ∧ ∀ j, Ticketed j sh ps) (J := Attributed)
    (fun u hu => ⟨Attended.of_run hu, Ticketed.of_run hu⟩) ?_ ?_ h rfl
  · exact fun sh p rest c sh' p' hI hk _ hm => hk.step hI.1 hI.2 hm
  · intro sh ps op sh' p _ hk hm
    have hheard : sh'.heard = sh.heard := by
      funext i
      simp only [Shared.heard, invoke_job (g := Job.entry) (fun _ _ => rfl) hm i]
    have hcount : sh'.acct = sh.acct := by rw [invoke_same hm]
    have hp : p.cancels = 0 ∧ p.reported = 0 ∧ p.wins sh.heard = 0 := by
      cases op with
      | submit j caller | cancelQueued j caller =>
        simp only [invoke] at hm
        split at hm <;> cases hm
        exact ⟨rfl, rfl, rfl⟩
      | _ =>
        cases hm
        exact ⟨rfl, rfl, rfl⟩
    simp only [Attributed, total_cons, hheard, hcount, hp.1, hp.2.1, hp.2.2, Nat.zero_add]
    exact hk

def Seized (j : JobId) (sh : Shared) (ps : Multiset Pc) : Prop :=
  (sh.jobs j).entry = some .taken ∧ total (Pc.won j) ps = 0

theorem Seized.step (hz : Seized j sh (p ::ₘ rest)) (att : Attended sh (p ::ₘ rest))
    (tk : Ticketed j sh (p ::ₘ rest)) (h : Dynamic.step sh c p = some (sh', p')) :
    Seized j sh' (p' ::ₘ (↑(spawned p c) + rest)) := by
  obtain ⟨he, hw⟩ := taken_step tk att hz.1 h
  exact ⟨he, hw.trans hz.2⟩

theorem Seized.call {op : Op} (hz : Seized j sh ps) (h : invoke sh op = some (sh', p)) : Seized j sh' (p ::ₘ ps) := by
  refine ⟨(invoke_job (g := Job.entry) (fun _ _ => rfl) h j).trans hz.1, ?_⟩
  rw [total_cons, (invoke_bids h).2, hz.2]

def Pc.drains : Pc → Option JobId
  | .stop (.drainWithdraw _ _ j) => some j
  | _ => none

theorem foreign_drains : Foreign Pc.drains :=
  ⟨fun _ _ => rfl, fun _ _ => rfl, fun _ => rfl, fun _ => rfl, rfl, fun _ _ => rfl, fun _ => rfl, fun _ _ => rfl,
    fun _ => rfl⟩

/-- A stop call that takes job `j` out of the queue seizes it. -/
theorem seized_own {running : ℕ} {jobs : List JobId} (att : Attended sh (p ::ₘ rest))
    (tk : Ticketed j sh (p ::ₘ rest)) (h : step sh c p = some (sh', .stop (.drainWithdraw running jobs j))) :
    Seized j sh' (.stop (.drainWithdraw running jobs j) ::ₘ (↑(spawned p c) + rest)) := by
  have hcall : p.call = some .stop := ((step_work h).caller nofun).symm
  by_cases hsh : p.inShared = true
  · cases foreign_drains.step hsh h
  obtain ⟨hold, hnew⟩ : (sh.jobs j).entry = some .queued ∧ (sh'.jobs j).entry = some .taken := by
    cases p with
    | stop p =>
      cases p with
      | drain running jobs =>
        simp only [step, stopStep] at h
        split at h
        · cases h
        · split at h
          · rename_i s hs
            have he := entry_of_takeQueued hs
            obtain rfl := takeQueued_eq_some hs
            cases h
            exact ⟨he, by simp [Shared.setEntry]⟩
          · cases h
      | lockState =>
        obtain ⟨s, hs, h⟩ := Option.map_eq_some_iff.mp h
        cases hl : s.state.lifecycle <;> simp only [hl] at h <;> cases h
      | readInflight | recheck =>
        simp only [step, stopStep] at h
        split at h <;> cases h
      | next jobs report => cases jobs <;> cases h
      | _ =>
        simp only [step, stopStep, Shared.lock, Shared.lockQueue, Shared.withLock, Shared.lower] at h
        repeat' split at h
        all_goals cases h
    | cancel p k =>
      cases k with
      | stop i jobs report =>
        cases p
        all_goals simp only [step, cancelStep, Shared.lower] at h
        all_goals repeat' split at h
        all_goals cases h
      | _ => cases hcall
    | spawn p k => cases k <;> cases hcall
    | _ => first | cases hcall | exact absurd rfl hsh
  refine ⟨hnew, ?_⟩
  have tab := tk.table
  rw [hold] at tab
  have hz := tab.2
  rw [total_cons] at hz
  rw [total_cons, total_add, spawned_bids.2, Nat.zero_add]
  have hp : (Pc.stop (.drainWithdraw running jobs j)).won j = 0 := rfl
  omega

theorem seized_of_run {running : ℕ} {jobs : List JobId} (h : machine.Run ok (init config tickets) t)
    (hm : .stop (.drainWithdraw running jobs j) ∈ t.actors) : Seized j t.shared t.actors := by
  refine induction_along (I := fun sh ps => Attended sh ps ∧ Ticketed j sh ps)
    (J := fun sh ps => .stop (.drainWithdraw running jobs j) ∈ ps → Seized j sh ps)
    (fun u hu => ⟨Attended.of_run hu, Ticketed.of_run hu j⟩) ?_ ?_ h
    (fun hm => absurd hm (Multiset.notMem_zero _)) (Multiset.mem_coe.mpr hm)
  · intro sh p rest c sh' p' hI hk _ hs hmem
    rcases Multiset.mem_cons.mp hmem with rfl | hmem
    · exact seized_own hI.1 hI.2 hs
    · rcases Multiset.mem_add.mp hmem with hmem | hmem
      · cases Consistent.spawned_fresh (Multiset.mem_coe.mp hmem)
      · exact (hk (Multiset.mem_cons_of_mem hmem)).step hI.1 hI.2 hs
  · intro sh ps op sh' p _ hk hc hmem
    rcases Multiset.mem_cons.mp hmem with rfl | hmem
    · cases op with
      | submit i caller | cancelQueued i caller =>
        simp only [invoke] at hc
        split at hc <;> cases hc
      | _ => cases hc
    · exact (hk hmem).call hc

/-- A job that a stop call has drained returns to the queue never and is won by no ticket. -/
theorem drained_once {running : ℕ} {jobs : List JobId} (hs : machine.Run ok (init config tickets) s)
    (hm : .stop (.drainWithdraw running jobs j) ∈ s.actors) (h : machine.Run ok s t) :
    j ∉ t.shared.globalQueue ∧ ∀ p ∈ t.actors, p.won j = 0 ∧ p.asks j = 0 := by
  have hz : Seized j t.shared t.actors := by
    refine induction_along (I := fun sh ps => Attended sh ps ∧ Ticketed j sh ps) (J := Seized j)
      (fun u hu => ⟨Attended.of_run (hs.trans hu), Ticketed.of_run (hs.trans hu) j⟩) ?_ ?_ h (seized_of_run hs hm)
    · exact fun sh p rest c sh' p' hI hk _ hs => hk.step hI.1 hI.2 hs
    · exact fun sh ps op sh' p _ hk hc => hk.call hc
  have hrun := hs.trans h
  have tab := (Ticketed.of_run hrun j).table
  rw [hz.1] at tab
  refine ⟨fun hq => ?_, fun p hp => ⟨?_, ?_⟩⟩
  · have := (Attended.of_run hrun).consistent.recorded.linked j hq
    rw [hz.1] at this
    cases this
  · exact total_eq_zero_iff.mp hz.2 p (Multiset.mem_coe.mpr hp)
  · exact total_eq_zero_iff.mp tab.1 p (Multiset.mem_coe.mpr hp)

/-- However submitters, workers, tickets, shutdowns and stop calls interleave: after the drain of a stop call the
FIFO stays empty and nothing is published; no worker takes a job once it reads `stop_now` after a stop call has
stored it; when a stop call returns, the jobs it drained are cancelled to the last update; while no cancellation is
under way, `cancelled` is the sum of the reports and of the calls of `cancel_queued` that won; and a job that a stop
call drains is drained by no other one and won by no ticket. -/
theorem stop_complete_and_exact (h : machine.Run Machine.free (init config tickets) t) :
    (∀ p ∈ t.actors, p.stopStage = .drained → ∀ u, machine.Run Machine.free t u →
      u.shared.globalQueue = [] ∧ u.shared.acct.count .submitted = t.shared.acct.count .submitted) ∧
      (∀ p ∈ t.actors, p.stopStage ≠ .closing → ∀ u, machine.Run Machine.free t u → ∀ c,
        step u.shared c (.worker .takeStop) = some (u.shared, .worker .takeNone)) ∧
      (∀ (s : State Shared Pc) (i running : ℕ) (jobs : List JobId) (report : StopReport),
        machine.Run Machine.free (init config tickets) s → s.actors[i]? = some (.stop (.unlockQueue running jobs)) →
        machine.Run Machine.free s t → t.actors[i]? = some (.stop (.returned report)) →
        report = ⟨jobs.length, running, jobs.length⟩ ∧ ∀ j ∈ jobs,
          t.shared.history j = [.acceptBegin, .acceptEnd, .cancelBegin, .cancelEnd, .accounted]) ∧
      ((∀ p ∈ t.actors, p.cancels = 0) →
        t.shared.acct.count .cancelled = total Pc.reported t.actors + total (Pc.wins t.shared.heard) t.actors) ∧
      ∀ running jobs j, .stop (.drainWithdraw running jobs j) ∈ t.actors → ∀ u, machine.Run Machine.free t u →
        j ∉ u.shared.globalQueue ∧ ∀ p ∈ u.actors, p.won j = 0 ∧ p.asks j = 0 := by
  refine ⟨fun p hp hd u hu => ?_, fun p hp hd u hu c => ?_, fun s i running jobs report hs hi hst hr => ?_,
    fun hz => ?_, fun running jobs j hm u hu => drained_once h hm hu⟩
  · have hk : StopStage.Knows u.shared .drained := hd ▸ knows_along h hp hu
    have he : StopStage.Knows t.shared .drained := hd ▸ stopStage_of_run h p hp
    exact ⟨hk.2.2, submitted_along h he.2 hu⟩
  · have hk := knows_along h hp hu
    have hstop : u.shared.stopNow = true := by
      cases hs : p.stopStage with
      | closing => exact absurd hs hd
      | stored =>
        rw [hs] at hk
        exact hk
      | waited | drained =>
        rw [hs] at hk
        exact hk.1
    simp [step, workerStep, hstop]
  · exact drained_accounted hs hi hst hr
  · have hat := Attributed.of_run h
    have hzero : total Pc.cancels t.actors = 0 :=
      total_eq_zero_iff.mpr fun p hp => hz p (Multiset.mem_coe.mp hp)
    rw [Attributed, hzero, Nat.add_zero] at hat
    exact hat

end

/-- While job 0 runs, a ticket cancels job 2 and a stop call drains job 1. -/
def attributedSchedule : List (Move Outcome Op) :=
  call (Op.submit 0 0) :: turns 0 19 Outcome.ok ++ turns 1 10 Outcome.ok ++
    call (Op.submit 1 0) :: turns 2 17 Outcome.ok ++ call (Op.submit 2 0) :: turns 3 17 Outcome.ok ++
    call (Op.cancelQueued 2 0) :: turns 4 15 Outcome.ok ++
    call Op.stop :: turns 5 27 Outcome.ok

theorem stop_complete_and_exact_drained : ∃ t, machine.Run Machine.free (init soleWorker fun j => j == 2) t ∧
    t.actors[5]? = some (Pc.stop (.returned ⟨1, 1, 1⟩)) ∧ t.actors[4]? = some (Pc.ticket 2 (.returned true)) ∧
      t.shared.acct.count .cancelled = 2 ∧
      t.shared.acct.count .cancelled = total Pc.reported t.actors + total (Pc.wins t.shared.heard) t.actors := by
  have hexec : (machine.exec Machine.free (init soleWorker fun j => j == 2) attributedSchedule).map
      (fun t => (t.actors[5]?, t.actors[4]?, t.shared.acct.count .cancelled, t.actors.map Pc.cancels)) =
      some (some (Pc.stop (.returned ⟨1, 1, 1⟩)), some (Pc.ticket 2 (.returned true)), 2, [0, 0, 0, 0, 0, 0]) := by
    decide
  obtain ⟨t, hrun, ht⟩ := machine.exec_reaches hexec
  simp only [Prod.mk.injEq] at ht
  obtain ⟨hstop, hticket, hcount, hcancels⟩ := ht
  refine ⟨t, hrun, hstop, hticket, hcount, (stop_complete_and_exact hrun).2.2.2.1 fun p hp => ?_⟩
  have hm : p.cancels ∈ t.actors.map Pc.cancels := List.mem_map_of_mem hp
  rw [hcancels] at hm
  simpa using hm

end ThreadPools.Dynamic
