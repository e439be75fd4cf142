import ThreadPools.Dynamic.Tickets

/-! # The results of `cancel_queued` -/
namespace ThreadPools.Dynamic
open Interleaving
open Move (call)

variable {sh sh' : Shared} {p p' q : Pc} {ps rest : Multiset Pc} {c : Outcome} {j : JobId} {ph : Phase}

theorem final_step (att : Attended sh (p ::ₘ rest)) (hh : sh.history j = ph.history) (hf : ph.Final)
    (h : step sh c p = some (sh', p')) : sh'.history j = ph.history := by
  have inv' := att.consistent.step_preserved ⟨False.elim, False.elim⟩ h
  rcases (step_work h).history with he | ⟨i, e, he⟩
  · rw [he]
    exact hh
  · by_cases hi : j = i
    · subst hi
      obtain ⟨ph', hp⟩ := inv'.recorded.law.exists_phase j
      refine absurd hp.symm ?_
      rw [he, Function.update_self, hh]
      exact hf ph' e
    · rw [he, Function.update_of_ne hi]
      exact hh

theorem invoke_history {op : Op} (h : invoke sh op = some (sh', p)) : sh'.history = sh.history :=
  funext fun j => invoke_job (g := Job.history) (fun _ _ => rfl) h j

theorem Attended.traced (att : Attended sh (p ::ₘ rest)) (hm : (j, ph) ∈ p.holdings) : sh.history j = ph.history := by
  refine att.consistent.recorded.law.traced (j, ph) (Multiset.mem_add.mpr (Or.inr ?_))
  exact Multiset.mem_bind.mpr ⟨p, Multiset.mem_cons_self p rest, hm⟩

def Pc.answer : Pc → Option Bool
  | .ticket _ (.returned b) => some b
  | _ => none

theorem foreign_answer : Foreign Pc.answer :=
  ⟨fun _ _ => rfl, fun _ _ => rfl, fun _ => rfl, fun _ => rfl, rfl, fun _ _ => rfl, fun _ => rfl, fun _ _ => rfl,
    fun _ => rfl⟩

theorem invoke_answer {op : Op} (h : invoke sh op = some (sh', p)) : p.answer = none := by
  cases op with
  | submit i caller =>
    simp only [invoke] at h
    split at h <;> cases h
    rfl
  | cancelQueued i caller =>
    simp only [invoke] at h
    split at h <;> cases h
    rfl
  | _ =>
    cases h
    rfl

/-- A call of `cancel_queued` answers `true` from its own cancellation or on the word of the submitter,
and one that waits answers `false` if it was not heard. -/
theorem answer_cases {b : Bool} (h : step sh c p = some (sh', .ticket j (.returned b))) :
    b = true ∧ p = .cancel .done (.ticket j) ∨
      p = .ticket j .waiting ∧ b = decide ((sh.jobs j).entry = some .cancelled) ∧
        (∀ owner requested, (sh.jobs j).entry ≠ some (.accepting owner requested)) ∧
        (sh.jobs j).entry ≠ some .cancelling ∨
      b = false ∧ ((∃ caller, p = .ticket j (.check caller)) ∨ p = .ticket j .unlockFalse) := by
  have hcall : p.call = some (.ticket j) := ((step_work h).caller nofun).symm
  by_cases hsh : p.inShared = true
  · cases foreign_answer.step hsh h
  cases p with
  | ticket i p =>
    cases hcall
    cases p with
    | check caller =>
      simp only [step, ticketStep] at h
      repeat' split at h
      all_goals cases h
      all_goals exact Or.inr (Or.inr ⟨rfl, Or.inl ⟨caller, rfl⟩⟩)
    | waiting =>
      simp only [step, ticketStep] at h
      split at h
      · cases h
      · split at h
        · cases h
        · cases h
        · rename_i ha hc
          cases h
          exact Or.inr (Or.inl ⟨rfl, rfl, ha, hc⟩)
    | unlockFalse =>
      cases h
      exact Or.inr (Or.inr ⟨rfl, Or.inr rfl⟩)
    | _ =>
      simp only [step, ticketStep, Shared.lockQueue, Shared.lower] at h
      repeat' split at h
      all_goals cases h
  | cancel p k =>
    cases k with
    | ticket i =>
      cases hcall
      cases p with
      | done =>
        cases h
        exact Or.inl ⟨rfl, rfl⟩
      | _ =>
        simp only [step, cancelStep, Shared.lower] at h
        repeat' split at h
        all_goals cases h
    | _ => cases hcall
  | spawn p k => cases k <;> cases hcall
  | _ => first | cases hcall | exact absurd rfl hsh

/-- The submitter keeps its refused job. -/
theorem Pc.refused_holds (hp : p.call = some (.submit j)) (hs : p.stage = .refused) :
    (j, Phase.rejected .acceptancePanicked) ∈ p.holdings := by
  unfold Pc.call at hp
  unfold Pc.stage at hs
  show _ ∈ p.home.direct 0
  cases hh : p.home with
  | submit i q =>
    rw [hh] at hp hs
    cases hp
    have hphase : q.phase = some (.rejected .acceptancePanicked) := by
      cases q with
      | discard error =>
        cases error with
        | rejected e => cases hs
        | acceptancePanicked => rfl
      | leave result | departGate result | departWaiters result | returned result =>
        cases result with
        | none => cases hs
        | some error =>
          cases error with
          | rejected e => cases hs
          | acceptancePanicked => rfl
      | _ => cases hs
    simp [Pc.direct, Book.single, hphase]
  | _ =>
    rw [hh] at hs
    cases hs

section
variable {config : ThreadPoolConfig} {tickets : JobId → Bool} {ok : Machine.Guard Shared Pc Outcome}
variable {s t u : State Shared Pc} {i : ℕ}

theorem final_along (hs : machine.Run ok (init config tickets) s) (hf : ph.Final)
    (hh : s.shared.history j = ph.history) (h : machine.Run ok s t) : t.shared.history j = ph.history := by
  refine induction_along (J := fun sh _ => sh.history j = ph.history)
    (fun u hu => Attended.of_run (hs.trans hu)) ?_ ?_ h hh
  · exact fun sh p rest c sh' p' att hk _ hm => final_step att hk hf hm
  · intro sh ps op sh' p _ hk hm
    rw [invoke_history hm]
    exact hk

/-- An answer `true` and a cancelled entry tell that the job is cancelled, to the last update. -/
theorem cancelled_history (h : machine.Run ok (init config tickets) t)
    (hc : (t.shared.jobs j).entry = some .cancelled ∨ .ticket j (.returned true) ∈ t.actors) :
    t.shared.history j = Phase.history .cancelled := by
  suffices hJ : ((t.shared.jobs j).entry = some .cancelled ∨ .ticket j (.returned true) ∈ (t.actors : Multiset Pc)) →
      t.shared.history j = Phase.history .cancelled from hJ (hc.imp_right Multiset.mem_coe.mpr)
  refine induction_along (J := fun sh ps => (sh.jobs j).entry = some .cancelled ∨ .ticket j (.returned true) ∈ ps →
    sh.history j = Phase.history .cancelled) (fun u hu => Attended.of_run hu) ?_ ?_ h ?_
  · intro sh p rest c sh' p' att hk _ hm hc
    refine final_step att ?_ Phase.final_cancelled hm
    rcases hc with he | hmem
    · rcases (step_work hm).entry j with hsame | hstep
      · exact hk (Or.inl (hsame ▸ he))
      · rw [he] at hstep
        generalize (sh.jobs j).entry = e at hstep
        cases hstep
        exact att.traced (Multiset.mem_cons_self (j, Phase.cancelled) 0)
    · rcases Multiset.mem_cons.mp hmem with rfl | hmem
      · rcases answer_cases hm with ⟨-, rfl⟩ | ⟨rfl, hb, -⟩ | ⟨hb, -⟩
        · exact att.traced (Multiset.mem_cons_self (j, Phase.cancelled) 0)
        · exact hk (Or.inl (of_decide_eq_true hb.symm))
        · cases hb
      · rcases Multiset.mem_add.mp hmem with hmem | hmem
        · cases Consistent.spawned_fresh (Multiset.mem_coe.mp hmem)
        · exact hk (Or.inr (Multiset.mem_cons_of_mem hmem))
  · intro sh ps op sh' p att hk hm hc
    rw [invoke_history hm]
    rw [invoke_job (g := Job.entry) (fun _ _ => rfl) hm j] at hc
    refine hk (hc.imp_right fun hmem => ?_)
    rcases Multiset.mem_cons.mp hmem with rfl | hmem
    · have := invoke_answer hm
      cases this
    · exact hmem
  · rintro (he | hmem)
    · have hinit : ((init config tickets).shared.jobs j).entry = if tickets j then some .prepared else none := rfl
      rw [hinit] at he
      split at he <;> cases he
    · exact absurd hmem (Multiset.notMem_zero _)

/-- Once its acceptance callback has panicked nothing else happens to a job. -/
theorem refused_history (h : machine.Run ok (init config tickets) t)
    (he : (t.shared.jobs j).entry = some .rejected) :
    t.shared.history j = Phase.history (.rejected .acceptancePanicked) := by
  have tk := Ticketed.of_run h j
  have law := (Attended.of_run h).consistent.recorded.law
  have ho : t.shared.offered j = true := by
    cases ho : t.shared.offered j with
    | true => rfl
    | false =>
      have := (tk.unoffered ho).1
      simp only [Stage.Admits, he] at this
      split at this <;> cases this
  obtain ⟨p, hp, hpj⟩ : ∃ p ∈ (t.actors : Multiset Pc), 0 < Pc.submits j p :=
    total_pos_iff.mp (by rw [one_submitter h j, ho]; exact Nat.one_pos)
  have hcall : p.call = some (.submit j) := by
    by_contra hne
    simp [Pc.submits, hne] at hpj
  have hst : p.stage = .refused := by
    have hfit := (tk.fits p hp hcall).1
    cases hstage : p.stage with
    | refused => rfl
    | accepting =>
      rw [hstage] at hfit
      simp only [Stage.Admits, he] at hfit
      split at hfit
      · obtain ⟨b, hb⟩ := hfit
        cases hb
      · cases hfit
    | given =>
      rw [hstage] at hfit
      simp [Stage.Admits, he] at hfit
    | _ =>
      rw [hstage] at hfit
      simp only [Stage.Admits, he] at hfit
      first | cases hfit | (split at hfit <;> cases hfit)
  refine law.traced (j, .rejected .acceptancePanicked) (Multiset.mem_add.mpr (Or.inr ?_))
  exact Multiset.mem_bind.mpr ⟨p, hp, Pc.refused_holds hcall hst⟩

/-- A request that is open, granted, or void because the acceptance callback panicked. -/
def Heeded (j : JobId) (u : State Shared Pc) (q : Pc) : Prop :=
  q.asks j = 1 ∨ q.won j = 1 ∨ q = .ticket j (.returned false) ∧
    u.shared.history j = Phase.history (.rejected .acceptancePanicked)

theorem Heeded.own (hu : machine.Run ok (init config tickets) u) (hq : q ∈ u.actors) (hK : Heeded j u q)
    {x : Shared × Pc} (hx : step u.shared c q = some x) {v : State Shared Pc} (hv : v.shared = x.1) :
    Heeded j v x.2 := by
  have hmem : q ∈ (u.actors : Multiset Pc) := Multiset.mem_coe.mpr hq
  have tk := Ticketed.of_run hu j
  obtain ⟨rest, hrest⟩ := Multiset.exists_cons_of_mem hmem
  have att := Attended.of_run hu
  rw [hrest] at att
  by_cases hcall : q.call = some (.ticket j)
  case neg =>
    obtain ⟨ha, hw⟩ := Pc.no_bid hcall
    rcases hK with h | h | ⟨rfl, -⟩
    · omega
    · omega
    · exact absurd rfl hcall
  obtain ⟨sh', q'⟩ := x
  cases bid_own hcall hx (att.consistent.sound_step hx) with
  | hold he ha hw =>
    rcases hK with h | h | ⟨rfl, -⟩
    · exact Or.inl (ha.trans h)
    · exact Or.inr (Or.inl (hw.trans h))
    · cases hx
  | ask | win => simp [Heeded, Pc.asks, Pc.won, Pc.home, Pc.directAsks, Pc.directWon, TicketPc.won] at hK
  | answer ha hc =>
    right
    by_cases he : (u.shared.jobs j).entry = some .cancelled
    · left
      simp [he, Pc.won, Pc.home, Pc.directWon, TicketPc.won]
    · right
      refine ⟨by simp [he], ?_⟩
      rw [hv]
      refine refused_history hu ?_
      -- The table leaves no other entry to a call that waits.
      have hle := le_total (f := Pc.asks j) hmem
      have hone : (Pc.ticket j .waiting).asks j = 1 := if_pos rfl
      have tab := tk.table
      rw [hone] at hle
      generalize (u.shared.jobs j).entry = e at ha hc he tab
      cases e with
      | none =>
        simp only [Table] at tab
        omega
      | some e =>
        cases e with
        | rejected => rfl
        | accepting owner requested => exact absurd rfl (ha owner requested)
        | cancelling => exact absurd rfl hc
        | cancelled => exact absurd rfl he
        | taken | queued | prepared =>
          simp only [Table] at tab
          omega

/-- A call that has won its job never answers `false`, and one that has made its request does so only if the
acceptance callback panicked. -/
theorem request_answered (hs : machine.Run ok (init config tickets) s) (hp : s.actors[i]? = some p)
    (hr : p = .ticket j .waiting ∨ p = .ticket j .withdraw) (h : machine.Run ok s t)
    (hf : t.actors[i]? = some (.ticket j (.returned false))) :
    t.shared.history j = Phase.history (.rejected .acceptancePanicked) := by
  have hK : Heeded j s p := by
    rcases hr with rfl | rfl
    · exact Or.inl (if_pos rfl)
    · exact Or.inr (Or.inl (if_pos rfl))
  have hend : ∃ q, t.actors[i]? = some q ∧ Heeded j t q := by
    refine h.tracks (K := Heeded j) ?_ ?_ hp hK
    · intro u v q c r hu _ hq hr hv hK
      obtain ⟨x, hx, rfl⟩ := Option.map_eq_some_iff.mp hr
      exact hK.own (hs.trans hu) (List.mem_of_getElem? hq) hx hv
    · intro u v q hu hfol hq hK
      refine Or.imp_right (Or.imp_right (And.imp_right fun hh => ?_)) hK
      exact final_along (hs.trans hu) Phase.final_refused hh (.single hfol)
  obtain ⟨q, hq, hK⟩ := hend
  rw [hf] at hq
  cases hq
  rcases hK with ha | hw | ⟨-, hh⟩
  · cases ha
  · simp [Pc.won, Pc.home, Pc.directWon, TicketPc.won] at hw
  · exact hh

/-- A ticket that is checked while the submitter is at a stage of its own finds the entry of that stage. -/
theorem check_own (h : machine.Run ok (init config tickets) t) (hp : p ∈ t.actors)
    (hpj : p.call = some (.submit j)) (hst : p.stage = .accepting) (ht : (t.shared.jobs j).ticketed = true) (c : Outcome) :
    step t.shared c (.ticket j (.check (t.shared.jobs j).submitter)) =
      some (t.shared, .ticket j (.returned false)) := by
  obtain ⟨hfit, hlock⟩ := (Ticketed.of_run h j).fits p (Multiset.mem_coe.mpr hp) hpj
  rw [hst] at hfit hlock
  simp only [Stage.Admits, ht, if_true] at hfit
  obtain ⟨b, hb⟩ := hfit
  have hl : (t.shared.jobs j).entryLocked = false := hlock
  simp [step, ticketStep, hl, hb]

/-- What `cancel_queued` says of a job is true, whatever the order of its tickets, its submission, the workers
and the stop calls. At most one call answers `true`; then the job is cancelled to the last update of its
accounting, is never run and was not rejected; a call whose request is registered or that took the job out of the
queue answers `false` only if the acceptance callback panicked; and the accepting thread is told `false` at once. -/
theorem ticket_results_truthful (h : machine.Run Machine.free (init config tickets) t) (j : JobId) :
    t.actors.count (.ticket j (.returned true)) ≤ 1 ∧
      (.ticket j (.returned true) ∈ t.actors →
        Law t.shared.acct t.shared.history t.shared.offered (book t.shared t.actors) ∧
        (j, .cancelled) ∈ book t.shared t.actors ∧
        (∀ error, .submit j (.returned (some error)) ∉ t.actors) ∧
        ∀ u, machine.Run Machine.free t u →
          u.shared.history j = [.acceptBegin, .acceptEnd, .cancelBegin, .cancelEnd, .accounted]) ∧
      (∀ (s : State Shared Pc) (i : ℕ) (p : Pc), machine.Run Machine.free (init config tickets) s →
        s.actors[i]? = some p → p = .ticket j .waiting ∨ p = .ticket j .withdraw → machine.Run Machine.free s t →
        t.actors[i]? = some (.ticket j (.returned false)) → .cancelBegin ∉ t.shared.history j) ∧
      (.submit j .accepting ∈ t.actors → (t.shared.jobs j).ticketed = true → ∀ c,
        step t.shared c (.ticket j (.check (t.shared.jobs j).submitter)) =
          some (t.shared, .ticket j (.returned false))) := by
  have inv := Consistent.of_free_run h
  have law := inv.recorded.law
  refine ⟨?_, fun hm => ?_, fun s i p hs hp hr hst hf => ?_, fun hm ht c => check_own h hm rfl rfl ht c⟩
  · have hone := count_le_total (f := Pc.won j) (p := .ticket j (.returned true)) (Nat.le_of_eq (if_pos rfl).symm)
      (t.actors : Multiset Pc)
    rw [Multiset.coe_count] at hone
    exact hone.trans (Ticketed.of_run h j).table.won_le
  · have hh := cancelled_history h (Or.inr hm)
    have ho : t.shared.offered j = true := by
      cases ho : t.shared.offered j with
      | true => rfl
      | false =>
        have := law.untouched j ho
        rw [hh] at this
        cases this
    obtain ⟨ph, he⟩ := law.exists_entry ho
    refine ⟨law, ?_, fun error hr => ?_, fun u hu => final_along h Phase.final_cancelled hh hu⟩
    · have hph : ph = .cancelled := Phase.eq_cancelled ((law.traced _ he).symm.trans hh)
      rwa [hph] at he
    · have hrej : (j, Phase.rejected error) ∈ book t.shared t.actors :=
        Multiset.mem_add.mpr (Or.inr (Multiset.mem_bind.mpr
          ⟨_, Multiset.mem_coe.mpr hr, Multiset.mem_singleton_self (j, Phase.rejected error)⟩))
      have hrej := (law.traced _ hrej).symm.trans hh
      cases error <;> simp [Phase.history] at hrej
  · rw [request_answered hs hp hr hst hf]
    decide

end

/-- During the acceptance of job 0 another thread asks for its cancellation, and so does the accepting one. -/
def requestSchedule : List (Move Outcome Op) :=
  call (Op.submit 0 0) :: turns 0 9 Outcome.ok ++ call (Op.cancelQueued 0 1) :: turns 2 1 Outcome.ok ++
    call (Op.cancelQueued 0 0) :: turns 3 1 Outcome.ok ++ turns 0 16 Outcome.ok ++ turns 2 1 Outcome.ok

theorem ticket_results_truthful_requested : ∃ t, machine.Run Machine.free (init soleWorker fun _ => true) t ∧
    t.actors[2]? = some (Pc.ticket 0 (.returned true)) ∧ t.actors[3]? = some (Pc.ticket 0 (.returned false)) ∧
      t.actors.count (Pc.ticket 0 (.returned true)) ≤ 1 ∧
      t.shared.history 0 = [.acceptBegin, .acceptEnd, .cancelBegin, .cancelEnd, .accounted] := by
  have hexec : (machine.exec Machine.free (init soleWorker fun _ => true) requestSchedule).map
      (fun t => (t.actors[2]?, t.actors[3]?)) =
      some (some (Pc.ticket 0 (.returned true)), some (Pc.ticket 0 (.returned false))) := by
    decide
  obtain ⟨t, hrun, ht⟩ := machine.exec_reaches hexec
  obtain ⟨htrue, hfalse⟩ := Prod.mk.inj ht
  obtain ⟨hone, hcancelled, -⟩ := ticket_results_truthful hrun 0
  exact ⟨t, hrun, htrue, hfalse, hone, (hcancelled (List.mem_of_getElem? htrue)).2.2.2 t .refl⟩

end ThreadPools.Dynamic
