import ThreadPools.Interleaving.Tally
import ThreadPools.Dynamic.Cancellation

/-! # Rejected submissions of the dynamic pool -/
namespace ThreadPools.Dynamic
open Interleaving

variable {sh sh' : Shared} {p p' q : Pc} {ps rest : Multiset Pc} {c : Outcome} {j : JobId}

/-- A submission that has not decided on its entry, or that is rejected. -/
def Stage.open : Stage → Bool
  | .untouched | .accepting | .refused => true
  | .locked | .honoured | .given => false

theorem open_stored (hp : p.call = some (.submit j)) (h : step sh c p = some (sh', p'))
    (hn : ∀ e, p' ≠ .panicked e) (ho : p'.stage.open = true) : p.stage.open = true ∧ stored sh' = stored sh := by
  by_cases hsh : p.inShared = true
  · rw [Pc.stage, steady_stage.step hsh h] at ho
    exact ⟨ho, (shared_same hsh h).2.1⟩
  cases p with
  | submit i p =>
    cases hp
    cases p with
    | decideEntry =>
      simp only [step, submitStep] at h
      split at h <;> cases h <;> cases ho
    | leave result =>
      simp only [step, submitStep] at h
      split at h <;> cases h
      · refine ⟨?_, rfl⟩
        split at ho <;> exact ho
      · exact absurd rfl (hn _)
    | _ =>
      simp only [step, submitStep, Shared.lock, Shared.lockQueue, Shared.withLock, Shared.lower] at h
      repeat' split at h
      all_goals cases h
      all_goals first | exact absurd rfl (hn _) | exact ⟨ho, rfl⟩
  | spawn p k =>
    cases p <;> cases k <;> simp only [step, spawnStep] at h
    all_goals repeat' split at h
    all_goals cases h
    all_goals exact ⟨rfl, rfl⟩
  | cancel p k =>
    cases k with
    | submitter i =>
      cases p
      all_goals simp only [step, cancelStep, Shared.lower] at h
      all_goals repeat' split at h
      all_goals cases h
      all_goals first | exact absurd rfl (hn _) | cases ho
    | _ => cases hp
  | _ => first | cases hp | exact absurd rfl hsh

/-- A step that stores nothing moves every counter by what its actor holds more. -/
theorem count_own (inv : Consistent False False sh (p ::ₘ rest)) (h : step sh c p = some (sh', p'))
    (hs : stored sh' = stored sh) (d : Counter) :
    sh'.acct.count d + Book.sum d p.holdings = sh.acct.count d + Book.sum d p'.holdings := by
  have inv' := inv.step_preserved ⟨False.elim, False.elim⟩ h
  have hold := inv.recorded.law.counts d
  have hnew := inv'.recorded.law.counts d
  have hnone : (↑(spawned p c) : Multiset Pc).bind Pc.holdings = 0 := by
    refine (Multiset.bind_congr (g := fun _ => 0) fun q hq => ?_).trans (Multiset.bind_zero _)
    rw [Consistent.spawned_fresh (Multiset.mem_coe.mp hq)]
    rfl
  simp only [Book.sum, Multiset.cons_bind, Multiset.add_bind, hnone, hs, total_add, total_zero] at hold hnew ⊢
  omega

theorem inflight_own (inv : Consistent False False sh (p ::ₘ rest)) (h : step sh c p = some (sh', p')) :
    sh'.acct.inflightCount + p.home.inside.toNat = sh.acct.inflightCount + p'.home.inside.toNat := by
  have inv' := inv.step_preserved ⟨False.elim, False.elim⟩ h
  have hold := inv.gauged .inflight
  have hnew := inv'.gauged .inflight
  have hnone : total (Gauge.inflight.weight) (↑(spawned p c) : Multiset Pc) = 0 := by
    refine total_eq_zero_iff.mpr fun q hq => ?_
    rw [Consistent.spawned_fresh (Multiset.mem_coe.mp hq)]
    rfl
  have howed : ∀ ps : Multiset Pc, total (Gauge.inflight.owed) ps = 0 := fun ps =>
    total_eq_zero_iff.mpr fun q _ => rfl
  rw [howed, Nat.add_zero, total_cons] at hold
  rw [howed, Nat.add_zero, total_cons, total_add, hnone, Nat.zero_add] at hnew
  simp only [Gauge.value, Gauge.weight] at hold hnew
  omega

def SubmitResult.bare : SubmitResult → Bool
  | some (.rejected _) => true
  | _ => false

def SubmitPc.bare : SubmitPc → Bool
  | .enter | .lockState | .checkState | .reserveSlot | .rejectUnlock _ => true
  | .discard error => SubmitResult.bare (some error)
  | .leave result | .departGate result | .departWaiters result | .returned result => SubmitResult.bare result
  | _ => false

def Pc.directGrew : Pc → ℤ → Prop
  | .submit _ p => fun x => x = 0 ∧ p ≠ .handoff ∨ x = 1 ∧ p.bare = false
  | .spawn .notify _ | .spawn .unlock _ => fun x => x = 0
  | .spawn _ _ => fun x => x = 1
  | _ => fun x => x = 0 ∨ x = 1

def Pc.grew (p : Pc) : ℤ → Prop := p.home.directGrew

theorem steady_grew : Steady Pc.directGrew :=
  ⟨fun _ _ => rfl, rfl, fun _ => rfl, rfl, rfl⟩

theorem grew_own {x : ℤ} (hp : p.call = some (.submit j)) (h : step sh c p = some (sh', p'))
    (hn : ∀ e, p' ≠ .panicked e) (hx : p.grew x) :
    p'.grew (x + ((sh'.state.liveWorkers : ℤ) - sh.state.liveWorkers)) := by
  have keep : sh'.state.liveWorkers = sh.state.liveWorkers → p'.grew x →
      p'.grew (x + ((sh'.state.liveWorkers : ℤ) - sh.state.liveWorkers)) := by
    intro hl hg
    rwa [hl, sub_self, add_zero]
  by_cases hsh : p.inShared = true
  · refine keep (by rw [(shared_same hsh h).2.2]) ?_
    rw [Pc.grew, steady_grew.step hsh h]
    exact hx
  cases p with
  | submit i p =>
    cases hp
    cases p with
    | checkState =>
      obtain ⟨rfl, -⟩ | ⟨-, hb⟩ := hx
      · simp only [step, submitStep] at h
        repeat' split at h
        all_goals cases h
        all_goals first
          | exact keep rfl (Or.inl ⟨rfl, (by rintro ⟨⟩)⟩)
          | (show _ = _; simp [Shared.reserveWorkerLocked])
      · cases hb
    | reserveSlot =>
      obtain ⟨rfl, -⟩ | ⟨-, hb⟩ := hx
      · simp only [step, submitStep] at h
        repeat' split at h
        all_goals cases h
        all_goals first
          | exact keep rfl (Or.inl ⟨rfl, (by rintro ⟨⟩)⟩)
          | (show _ = _; simp [Shared.reserveWorkerLocked])
      · cases hb
    | leave result =>
      simp only [step, submitStep] at h
      split at h <;> cases h
      · refine keep rfl ?_
        split <;> exact hx.imp (And.imp_right fun _ => (by rintro ⟨⟩)) id
      · exact absurd rfl (hn _)
    | _ =>
      simp only [step, submitStep, Shared.lock, Shared.lockQueue, Shared.withLock, Shared.lower] at h
      repeat' split at h
      all_goals cases h
      all_goals first | exact absurd rfl (hn _) | skip
      all_goals refine keep rfl ?_
      all_goals first
        | exact hx.imp And.left And.left
        | exact hx.imp (And.imp_right fun _ => (by rintro ⟨⟩)) (And.imp_right fun hb => by first | rfl | exact hb)
  | spawn p k =>
    cases k with
    | submit i =>
      cases p with
      | spawn =>
        cases c <;> cases h
        all_goals exact keep rfl hx
      | liveCount =>
        cases h
        exact keep rfl (Or.inr ⟨hx, rfl⟩)
      | rollback =>
        simp only [step, spawnStep] at h
        split at h <;> cases h
        · rename_i hpos
          have hx : x = 1 := hx
          show _ = _
          simp only
          omega
        · exact absurd rfl (hn _)
      | notify =>
        cases h
        exact keep rfl hx
      | unlock =>
        cases h
        exact keep rfl (Or.inl ⟨hx, (by rintro ⟨⟩)⟩)
    | prestart => cases hp
  | cancel p k =>
    cases k with
    | submitter i =>
      cases p with
      | done =>
        cases h
        exact keep rfl (Or.imp (fun hx => ⟨hx, (by rintro ⟨⟩)⟩) (fun hx => ⟨hx, rfl⟩) hx)
      | _ =>
        simp only [step, cancelStep, Shared.lower] at h
        repeat' split at h
        all_goals cases h
        all_goals first | exact absurd rfl (hn _) | exact keep rfl hx
    | _ => cases hp
  | _ => first | cases hp | exact absurd rfl hsh

section
variable {config : ThreadPoolConfig} {tickets : JobId → Bool} {ok : Machine.Guard Shared Pc Outcome}
variable {s t u : State Shared Pc} {i : ℕ} {error : PoolJobSubmissionError} {x : ℤ}

theorem Consistent.at_actor (hu : machine.Run ok (init config tickets) u) (hq : u.actors[i]? = some q) :
    ∃ rest, Consistent False False u.shared (q ::ₘ rest) := by
  obtain ⟨rest, hrest⟩ := Multiset.exists_cons_of_mem (Multiset.mem_coe.mpr (List.mem_of_getElem? hq))
  exact ⟨rest, hrest ▸ Consistent.of_free_run hu.free⟩

theorem rejected_count (hs : machine.Run ok (init config tickets) s) (hi : s.actors[i]? = some (.submit j .enter))
    (ht : t.actors[i]? = some (.submit j (.returned (some error)))) {d : Counter}
    (h : machine.Tally ok i (fun sh => (sh.acct.count d : ℤ)) s t x) : x = 0 := by
  have hz : ∀ ph : Phase, Book.sum d {(j, ph)} = Phase.weight d ph := fun ph => total_singleton _ _
  have hstart : Phase.weight d .offered = 0 := by cases d <;> rfl
  have hend : Phase.weight d (.rejected error) = 0 := by cases d <;> rfl
  have hfirst : (0 : ℤ) = ((Book.sum d {(j, Phase.offered)} : ℕ) : ℤ) := by
    rw [hz, hstart]
    rfl
  have key : ∃ q, t.actors[i]? = some q ∧ q.call = some (.submit j) ∧
      (q.stage.open = true → x = (Book.sum d q.holdings : ℤ)) := by
    refine h.tracks (K := fun q x => q.call = some (.submit j) ∧
      (q.stage.open = true → x = (Book.sum d q.holdings : ℤ))) ?_ hi ⟨rfl, fun _ => hfirst⟩
    rintro u q c r x hu hq hr ⟨hcall, hK⟩
    obtain ⟨y, hy, rfl⟩ := Option.map_eq_some_iff.mp hr
    obtain ⟨rest, inv⟩ := Consistent.at_actor (hs.trans hu) hq
    have hn := inv.sound_step hy
    refine ⟨((step_work hy).caller hn).trans hcall, fun ho => ?_⟩
    obtain ⟨hopen, hst⟩ := open_stored hcall hy hn ho
    have hc := count_own inv hy hst d
    have hx := hK hopen
    simp only at hc ⊢
    omega
  obtain ⟨q, hq, -, hx⟩ := key
  rw [ht] at hq
  cases hq
  have hopen : (Pc.submit j (.returned (some error))).stage.open = true := by cases error <;> rfl
  rw [hx hopen]
  show ((Book.sum d {(j, Phase.rejected error)} : ℕ) : ℤ) = 0
  rw [hz, hend]
  rfl

theorem rejected_inflight (hs : machine.Run ok (init config tickets) s)
    (hi : s.actors[i]? = some (.submit j .enter)) (ht : t.actors[i]? = some (.submit j (.returned (some error))))
    (h : machine.Tally ok i (fun sh => (sh.acct.inflightCount : ℤ)) s t x) : x = 0 := by
  have key : ∃ q, t.actors[i]? = some q ∧ x = (q.home.inside.toNat : ℤ) := by
    refine h.tracks (K := fun q x => x = (q.home.inside.toNat : ℤ)) ?_ hi rfl
    intro u q c r x hu hq hr hK
    obtain ⟨y, hy, rfl⟩ := Option.map_eq_some_iff.mp hr
    obtain ⟨rest, inv⟩ := Consistent.at_actor (hs.trans hu) hq
    have hc := inflight_own inv hy
    simp only at hc ⊢
    omega
  obtain ⟨q, hq, hx⟩ := key
  rw [ht] at hq
  cases hq
  exact hx

theorem rejected_live (hs : machine.Run ok (init config tickets) s)
    (hi : s.actors[i]? = some (.submit j .enter)) (ht : t.actors[i]? = some (.submit j (.returned (some error))))
    (h : machine.Tally ok i (fun sh => (sh.state.liveWorkers : ℤ)) s t x) :
    x = 0 ∨ x = 1 ∧ error = .acceptancePanicked := by
  have key : ∃ q, t.actors[i]? = some q ∧ q.call = some (.submit j) ∧ q.grew x := by
    refine h.tracks (K := fun q x => q.call = some (.submit j) ∧ q.grew x) ?_ hi ⟨rfl, Or.inl ⟨rfl, nofun⟩⟩
    rintro u q c r x hu hq hr ⟨hcall, hx⟩
    obtain ⟨y, hy, rfl⟩ := Option.map_eq_some_iff.mp hr
    obtain ⟨rest, inv⟩ := Consistent.at_actor (hs.trans hu) hq
    have hn := inv.sound_step hy
    exact ⟨((step_work hy).caller hn).trans hcall, grew_own hcall hy hn hx⟩
  obtain ⟨q, hq, -, hx⟩ := key
  rw [ht] at hq
  cases hq
  refine Or.imp And.left (And.imp_right fun hb => ?_) hx
  cases error with
  | rejected e => cases hb
  | acceptancePanicked => rfl

theorem mem_history_along {ev : JobEvent} (hs : machine.Run ok (init config tickets) s)
    (he : ev ∈ s.shared.history j) (h : machine.Run ok s t) : ev ∈ t.shared.history j := by
  refine invariant_along (J := fun sh _ => ev ∈ sh.history j) hs ?_ ?_ h he
  · exact fun sh p rest c sh' p' _ hk _ hm => (step_work hm).mem_history hk
  · intro sh ps op sh' p _ hk hm
    rw [invoke_history hm]
    exact hk

theorem returned_stays {result : SubmitResult} (h : machine.Run ok t u)
    (ht : t.actors[i]? = some (.submit j (.returned result))) : u.actors[i]? = some (.submit j (.returned result)) := by
  have key : ∃ q, u.actors[i]? = some q ∧ q = .submit j (.returned result) := by
    refine h.tracks (K := fun _ q => q = .submit j (.returned result)) ?_ ?_ ht rfl
    · intro v w q c r _ _ _ hr _ hK
      obtain ⟨y, hy, rfl⟩ := Option.map_eq_some_iff.mp hr
      subst hK
      cases hy
    · exact fun _ _ _ _ _ _ hK => hK
  obtain ⟨q, hq, rfl⟩ := key
  exact hq

structure Traceless (j : JobId) (error : PoolJobSubmissionError) (sh : Shared) : Prop where
  queue : j ∉ sh.globalQueue
  history : sh.history j = Phase.history (.rejected error)
  tickets : (sh.jobs j).ticketed = true → ∀ c caller,
    step sh c (.ticket j (.check caller)) = some (sh, .ticket j (.returned false))

theorem traceless_of_returned (hu : machine.Run ok (init config tickets) u)
    (hm : .submit j (.returned (some error)) ∈ u.actors) : Traceless j error u.shared := by
  have inv := Consistent.of_free_run hu.free
  have hbook : (j, Phase.rejected error) ∈ book u.shared u.actors :=
    Multiset.mem_add.mpr (Or.inr (Multiset.mem_bind.mpr
      ⟨_, Multiset.mem_coe.mpr hm, Multiset.mem_singleton_self (j, Phase.rejected error)⟩))
  have hh := inv.recorded.law.traced _ hbook
  refine ⟨fun hq => ?_, hh, fun ht c caller => ?_⟩
  · have hqueued := inv.recorded.law.eq_of_mem hbook (Multiset.mem_add.mpr (Or.inl (Book.mem_stored hq)))
    cases hqueued
  · obtain ⟨hfit, hlock⟩ := (Ticketed.of_run hu j).fits _ (Multiset.mem_coe.mpr hm) rfl
    have hfree : (u.shared.jobs j).entryLocked = false := by
      rw [hlock]
      cases error <;> rfl
    cases error with
    | rejected e =>
      have he : (u.shared.jobs j).entry = some .prepared := by
        simpa [Pc.stage, Pc.home, Pc.directStage, SubmitPc.stage, SubmitResult.stage, Stage.Admits, ht] using hfit
      simp [step, ticketStep, hfree, he]
    | acceptancePanicked =>
      have he : (u.shared.jobs j).entry = some .rejected := by
        simpa [Pc.stage, Pc.home, Pc.directStage, SubmitPc.stage, SubmitResult.stage, Stage.Admits, ht] using hfit
      simp [step, ticketStep, hfree, he]

/-- The job of a rejected submission was never in the queue. -/
theorem never_queued (hu : machine.Run ok (init config tickets) u) (h : machine.Run ok u t)
    (hm : .submit j (.returned (some error)) ∈ t.actors) : j ∉ u.shared.globalQueue := by
  intro hq
  have law := (Consistent.of_free_run hu.free).recorded.law
  have he : (j, Phase.queued) ∈ stored u.shared := Book.mem_stored hq
  have hacc : .acceptEnd ∈ u.shared.history j := by
    rw [law.traced _ (Multiset.mem_add.mpr (Or.inl he))]
    exact (Book.stored_phase he).1
  have hend := mem_history_along hu hacc h
  rw [(traceless_of_returned (hu.trans h) hm).history] at hend
  cases error <;> simp [Phase.history] at hend

end

end ThreadPools.Dynamic
