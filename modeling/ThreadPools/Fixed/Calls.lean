import ThreadPools.Fixed.Runs

/-! # The calls of the fixed pool and what they do to the jobs -/
namespace ThreadPools.Fixed
open Interleaving

inductive Call where
  | submit (j : JobId)
  | worker | shutdown | stop | join | observe
  deriving DecidableEq

def CancelCaller.call : CancelCaller → Call
  | .worker _ => .worker
  | .stop _ _ _ => .stop

def IdleCaller.call : IdleCaller → Call
  | .finishedRunning => .worker
  | .join => .join
  | .term _ => .observe

def Pc.call : Pc → Option Call
  | .submit j _ => some (.submit j)
  | .worker _ => some .worker
  | .shutdown _ => some .shutdown
  | .stop _ => some .stop
  | .cancel _ k => some k.call
  | .join _ => some .join
  | .observe _ => some .observe
  | .idle _ k => some k.call
  | .panicked _ => none

theorem Pc.eq_submit {p : Pc} {j : JobId} (h : p.call = some (.submit j)) : ∃ q, p = .submit j q := by
  cases p with
  | submit i q =>
    obtain rfl : i = j := by simpa [Pc.call] using h
    exact ⟨q, rfl⟩
  | cancel q k => cases k <;> cases h
  | idle r k => cases k <;> cases h
  | _ => cases h

structure Work (sh : Shared) (p : Pc) (sh' : Shared) (p' : Pc) : Prop where
  queue : ∀ j ∈ sh'.globalQueue, j ∈ sh.globalQueue ∨ p = .submit j .push
  history : sh'.history = sh.history ∨
    ∃ j e, sh'.history = Function.update sh.history j (sh.history j ++ [e]) ∧
      (e = .runBegin → p = .worker (.callRun j))
  offered : sh'.offered = sh.offered
  caller : (∀ e, p' ≠ .panicked e) → p'.call = p.call

namespace Work
variable {sh sh' : Shared} {p p' : Pc} {c : Outcome} {j : JobId}

theorem of_same (hq : sh'.globalQueue = sh.globalQueue) (hh : sh'.history = sh.history)
    (ho : sh'.offered = sh.offered) (hp : (∀ e, p' ≠ .panicked e) → p'.call = p.call) : Work sh p sh' p' :=
  ⟨fun _ hj => Or.inl (hq ▸ hj), Or.inl hh, ho, hp⟩

theorem of_panic (e : Panic) : Work sh p sh (.panicked e) := of_same rfl rfl rfl fun hn => absurd rfl (hn e)

theorem of_record {e : JobEvent} (hq : sh'.globalQueue = sh.globalQueue)
    (hh : sh'.history = Function.update sh.history j (sh.history j ++ [e]))
    (he : e = .runBegin → p = .worker (.callRun j))
    (ho : sh'.offered = sh.offered) (hp : (∀ e, p' ≠ .panicked e) → p'.call = p.call) : Work sh p sh' p' :=
  ⟨fun _ hj => Or.inl (hq ▸ hj), Or.inr ⟨j, e, hh, he⟩, ho, hp⟩

theorem mem_history (w : Work sh p sh' p') {e : JobEvent} (he : e ∈ sh.history j) : e ∈ sh'.history j := by
  rcases w.history with hh | ⟨i, f, hh, -⟩
  · rw [hh]
    exact he
  · rw [hh]
    by_cases hi : j = i
    · subst hi
      rw [Function.update_self]
      exact List.mem_append_left _ he
    · rwa [Function.update_of_ne hi]

end Work

open Work
variable {sh sh' : Shared} {p p' q : Pc} {ps rest : Multiset Pc} {c : Outcome} {j : JobId}

theorem idleStep_call (sh : Shared) (r : IdleRead) (k : IdleCaller) :
    (idleStep sh r k).call = (Pc.idle r k).call := by
  unfold idleStep
  repeat' split
  all_goals
    cases k with
    | term o => cases o <;> rfl
    | _ => rfl

theorem workerStep_work {p : WorkerPc} (h : workerStep sh p = some (sh', p')) :
    Work sh (.worker p) sh' p' := by
  cases p with
  | steal =>
    simp only [workerStep] at h
    split at h <;> cases h
    · exact of_same rfl rfl rfl fun _ => rfl
    · rename_i i q hq
      refine ⟨fun j hj => Or.inl ?_, Or.inl rfl, rfl, fun _ => rfl⟩
      rw [hq]
      exact List.mem_cons_of_mem i hj
  | callRun i =>
    cases h
    exact of_record rfl rfl (fun _ => rfl) rfl fun _ => rfl
  | consume again =>
    cases again <;> cases h
    all_goals exact of_same rfl rfl rfl fun _ => rfl
  | _ =>
    simp only [workerStep, Shared.lock, Shared.withLock, Shared.lower] at h
    repeat' split at h
    all_goals first | (simp only [Option.map_some] at h; (repeat' split at h) <;> cases h) | cases h
    all_goals first
      | exact of_panic _
      | exact of_same rfl rfl rfl fun _ => rfl
      | exact of_record rfl rfl (fun he => by cases he) rfl fun _ => rfl

theorem submitStep_work {i : JobId} {p : SubmitPc} (h : submitStep sh i c p = some (sh', p')) :
    Work sh (.submit i p) sh' p' := by
  cases p with
  | push =>
    cases h
    refine ⟨fun j hj => ?_, Or.inl rfl, rfl, fun _ => rfl⟩
    refine (List.mem_append.mp hj).imp_right fun hj => ?_
    rw [List.mem_singleton.mp hj]
  | _ =>
    simp only [submitStep, Shared.withLock, Shared.lower] at h
    repeat' split at h
    all_goals cases h
    all_goals first
      | exact of_panic _
      | exact of_same rfl rfl rfl fun _ => rfl
      | exact of_record rfl rfl (fun he => by cases he) rfl fun _ => rfl

theorem stopStep_work {p : StopPc} (h : stopStep sh p = some (sh', p')) : Work sh (.stop p) sh' p' := by
  cases p with
  | lockState info =>
    obtain ⟨s, hs, h⟩ := Option.map_eq_some_iff.mp h
    obtain ⟨-, rfl⟩ := sh.lock_eq_some hs
    cases hl : sh.state.lifecycle <;> simp only [hl] at h <;> cases h
    all_goals exact of_same rfl rfl rfl fun _ => rfl
  | drain info jobs =>
    simp only [stopStep] at h
    split at h <;> cases h
    · exact of_same rfl rfl rfl fun _ => rfl
    · rename_i i q hq
      refine ⟨fun j hj => Or.inl ?_, Or.inl rfl, rfl, fun _ => rfl⟩
      rw [hq]
      exact List.mem_cons_of_mem i hj
  | begin info begun jobs =>
    cases jobs with
    | nil =>
      cases h
      exact of_same rfl rfl rfl fun _ => rfl
    | cons i jobs =>
      simp only [stopStep, Shared.lower] at h
      split at h <;> cases h
      · exact of_same rfl rfl rfl fun _ => rfl
      · exact of_panic _
  | next jobs report =>
    cases jobs <;> cases h
    all_goals exact of_same rfl rfl rfl fun _ => rfl
  | _ =>
    simp only [stopStep, Shared.lock, Shared.withLock] at h
    repeat' split at h
    all_goals cases h
    all_goals first | exact of_panic _ | exact of_same rfl rfl rfl fun _ => rfl

theorem step_work (h : step sh c p = some (sh', p')) : Work sh p sh' p' := by
  cases p with
  | submit i p => exact submitStep_work h
  | worker p => exact workerStep_work h
  | shutdown p =>
    cases p with
    | close =>
      cases h
      exact of_same rfl rfl rfl fun _ => rfl
    | lockState =>
      obtain ⟨s, hs, h⟩ := Option.map_eq_some_iff.mp h
      obtain ⟨-, rfl⟩ := sh.withLock_eq_some hs
      cases h
      split <;> exact of_same rfl rfl rfl fun _ => rfl
    | returned => cases h
  | stop p => exact stopStep_work h
  | cancel p k =>
    cases p with
    | done =>
      cases k <;> cases h
      all_goals exact of_same rfl rfl rfl fun _ => rfl
    | _ =>
      simp only [step, cancelStep, Shared.withLock, Shared.lower] at h
      repeat' split at h
      all_goals cases h
      all_goals first
        | exact of_panic _
        | exact of_same rfl rfl rfl fun _ => rfl
        | exact of_record rfl rfl (fun he => by cases he) rfl fun _ => rfl
  | join p =>
    cases p
    all_goals simp only [step, joinStep, Shared.lock] at h
    all_goals repeat' split at h
    all_goals cases h
    all_goals first | exact of_panic _ | exact of_same rfl rfl rfl fun _ => rfl
  | observe p =>
    cases p with
    | unlock o b =>
      cases o <;> cases h
      all_goals exact of_same rfl rfl rfl fun _ => rfl
    | term o =>
      simp only [step, observeStep] at h
      split at h <;> cases h
      · exact of_same rfl rfl rfl fun _ => rfl
      · exact of_same rfl rfl rfl fun _ => by cases o <;> rfl
    | _ =>
      simp only [step, observeStep, Shared.lock] at h
      repeat' split at h
      all_goals cases h
      all_goals exact of_same rfl rfl rfl fun _ => rfl
  | idle r k =>
    cases h
    exact of_same rfl rfl rfl fun _ => idleStep_call sh r k
  | panicked _ => cases h

/-- The control points at which a worker goes on after a shared function. -/
def WorkerPc.resumed : WorkerPc → Bool
  | .lockState | .finishNotify | .takeStop => true
  | _ => false

def StopPc.resumed : StopPc → Bool
  | .next _ _ => true
  | _ => false

/-- A worker comes to the other control points by a step of its own. -/
theorem worker_step {q : WorkerPc} (h : step sh c p = some (sh', .worker q)) (hq : q.resumed = false) :
    ∃ w, p = .worker w ∧ workerStep sh w = some (sh', .worker q) := by
  have hcall := (step_work h).caller (by rintro e ⟨⟩)
  cases p with
  | worker w => exact ⟨w, rfl, h⟩
  | cancel p k =>
    cases p <;> cases k <;> simp only [step, cancelStep, Shared.withLock, Shared.lower] at h
    all_goals repeat' split at h
    all_goals cases h
    cases hq
  | idle r k =>
    obtain ⟨-, h⟩ := Prod.mk.inj (Option.some.inj h)
    unfold idleStep at h
    cases k with
    | finishedRunning =>
      repeat' split at h
      all_goals cases h
      all_goals cases hq
    | join => cases hcall
    | term o => cases hcall
  | _ => cases hcall

theorem stop_step {q : StopPc} (h : step sh c p = some (sh', .stop q)) (hq : q.resumed = false) :
    ∃ s, p = .stop s ∧ stopStep sh s = some (sh', .stop q) := by
  have hcall := (step_work h).caller (by rintro e ⟨⟩)
  cases p with
  | stop s => exact ⟨s, rfl, h⟩
  | cancel p k =>
    cases p <;> cases k <;> simp only [step, cancelStep, Shared.withLock, Shared.lower] at h
    all_goals repeat' split at h
    all_goals cases h
    cases hq
  | idle r k => cases k <;> cases hcall
  | _ => cases hcall

/-- Outside the shared functions joiners and observers are at control points of their own. -/
theorem Pc.own {p : Pc} (hs : ∀ r k, p ≠ .idle r k) : match p.call with
    | some .join => ∃ q, p = .join q
    | some .observe => ∃ q, p = .observe q
    | _ => True := by
  cases p with
  | join q | observe q => exact ⟨q, rfl⟩
  | cancel p k => cases k <;> trivial
  | idle r k => exact absurd rfl (hs r k)
  | _ => trivial

/-- The submitter has had its job accepted and will return `Ok`, or has. -/
def SubmitPc.accepted : SubmitPc → Bool
  | .publishSubmitted | .publishQueued | .push | .loadIdle | .raiseToken _ | .broadcast => true
  | .leave result | .departGate result | .departWaiters result | .departNotify result
  | .returned result => result.isNone
  | _ => false

theorem submitStep_accepted {p q : SubmitPc} (h : submitStep sh j c p = some (sh', .submit j q))
    (hq : q.accepted = true) (hp : p.accepted = true → .acceptEnd ∈ sh.history j) :
    .acceptEnd ∈ sh'.history j := by
  have keep : p.accepted = true → .acceptEnd ∈ sh'.history j := fun ha => (submitStep_work h).mem_history (hp ha)
  cases p with
  | accepting =>
    cases c <;> cases h
    · simp [Shared.record]
    · cases hq
  | leave result =>
    refine keep ?_
    simp only [submitStep] at h
    repeat' split at h
    all_goals cases h
    all_goals exact hq
  | departGate result =>
    refine keep ?_
    simp only [submitStep] at h
    repeat' split at h
    all_goals cases h
    all_goals exact hq
  | departWaiters result =>
    refine keep ?_
    simp only [submitStep] at h
    repeat' split at h
    all_goals cases h
    all_goals exact hq
  | departNotify result =>
    refine keep ?_
    simp only [submitStep, Shared.withLock] at h
    repeat' split at h
    all_goals cases h
    exact hq
  | enter | reserve | callAccept | rollback | rollbackNotify | discard =>
    simp only [submitStep, Shared.withLock, Shared.lower] at h
    repeat' split at h
    all_goals cases h
    all_goals cases hq
  | returned result => cases h
  | _ => exact keep rfl

def Pc.submits (j : JobId) (p : Pc) : ℕ := if p.call = some (.submit j) then 1 else 0

section
variable {config : FixedThreadPoolConfig} {ok : Machine.Guard Shared Pc Outcome} {t : State Shared Pc}

theorem Consistent.sound_step (inv : Consistent False False sh (p ::ₘ rest))
    (h : step sh c p = some (sh', p')) : ∀ e, p' ≠ .panicked e :=
  (inv.step_preserved ⟨False.elim, False.elim⟩ h).sound p' (Multiset.mem_cons_self p' rest)

theorem one_submitter (h : machine.Run ok (init config) t) (j : JobId) :
    total (Pc.submits j) t.actors = (t.shared.offered j).toNat := by
  refine invariant_along (J := fun sh ps => total (Pc.submits j) ps = (sh.offered j).toNat) .refl ?_ ?_ h ?_
  · intro sh p rest c sh' p' inv hk _ hm
    have w := step_work hm
    rw [w.offered, ← hk, total_cons, total_cons, Pc.submits, w.caller (inv.sound_step hm), ← Pc.submits]
  · intro sh ps op sh' p _ hk hm
    cases op with
    | submit i =>
      simp only [invoke] at hm
      split at hm <;> cases hm
      by_cases hij : i = j
      · subst hij
        have hz : sh.offered i = false := Bool.eq_false_iff.mpr ‹_›
        rw [hz] at hk
        rw [total_cons, hk]
        simp [Pc.submits, Pc.call]
      · rw [total_cons, hk]
        simp [Pc.submits, Pc.call, hij, Function.update_of_ne (Ne.symm hij)]
    | _ =>
      cases hm
      rw [total_cons, hk]
      exact Nat.zero_add _
  · refine total_eq_zero_iff.mpr fun p hp => ?_
    rw [List.eq_of_mem_replicate (Multiset.mem_coe.mp hp)]
    rfl

theorem submitter_unique (h : machine.Run ok (init config) t) {a b : SubmitPc}
    (ha : .submit j a ∈ t.actors) (hb : .submit j b ∈ t.actors) : a = b := by
  by_contra hne
  obtain ⟨rest, hrest⟩ := Multiset.exists_cons_of_mem (Multiset.mem_coe.mpr ha)
  have hb' : Pc.submit j b ∈ rest := by
    rcases Multiset.mem_cons.mp (hrest ▸ Multiset.mem_coe.mpr hb) with he | hm
    · exact absurd (Pc.submit.inj he).2.symm hne
    · exact hm
  have hone := one_submitter h j
  have hle := le_total (f := Pc.submits j) hb'
  have hmax := Bool.toNat_le (t.shared.offered j)
  rw [hrest, total_cons] at hone
  simp only [Pc.submits, Pc.call, if_true] at hone hle
  omega

/-- A job whose submission has returned `Ok` was accepted. -/
theorem accepted_of_ok (h : machine.Run ok (init config) t) {q : SubmitPc} (hm : .submit j q ∈ t.actors)
    (hq : q.accepted = true) : .acceptEnd ∈ t.shared.history j := by
  have key : ∀ p ∈ t.actors, ∀ i q, p = .submit i q → q.accepted = true → .acceptEnd ∈ t.shared.history i := by
    refine known_along
      (K := fun sh p => ∀ i q, p = .submit i q → q.accepted = true → .acceptEnd ∈ sh.history i)
      .refl ?_ ?_ ?_ h ?_
    · intro sh p rest c sh' p' inv hk _ hs i q hq ha
      subst hq
      obtain ⟨p, rfl⟩ := Pc.eq_submit ((step_work hs).caller nofun).symm
      exact submitStep_accepted hs ha (hk i p rfl)
    · intro sh p rest c sh' p' q _ _ hk _ hs i r hq ha
      exact (step_work hs).mem_history (hk i r hq ha)
    · intro sh ps op sh' p _ hs
      rw [invoke_same hs]
      refine ⟨fun i q hq ha => ?_, fun q _ hk => hk⟩
      subst hq
      cases op with
      | submit k =>
        simp only [invoke] at hs
        split at hs <;> cases hs
        cases ha
      | _ => cases hs
    · intro p hp i q hq
      rw [List.eq_of_mem_replicate hp] at hq
      cases hq
  exact key _ hm j q rfl hq

end

end ThreadPools.Fixed
