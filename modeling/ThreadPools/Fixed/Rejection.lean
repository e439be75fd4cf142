import ThreadPools.Interleaving.Tally
import ThreadPools.Fixed.Workers

/-! # Rejected submissions of the fixed pool -/
namespace ThreadPools.Fixed
open Interleaving

variable {sh sh' : Shared} {p p' q : Pc} {ps rest : Multiset Pc} {c : Outcome} {j : JobId} {a : SubmitPc}

/-- A submission that still has its job stores nothing and registers no worker. -/
theorem open_stored {a b : SubmitPc} (h : submitStep sh j c a = some (sh', .submit j b)) (hb : b.phase ≠ none) :
    a.phase ≠ none ∧ stored sh' = stored sh := by
  cases a with
  | leave result =>
    simp only [submitStep] at h
    split at h <;> cases h
    refine ⟨?_, rfl⟩
    split at hb <;> exact hb
  | departGate result | departWaiters result =>
    simp only [submitStep] at h
    cases h
    refine ⟨?_, rfl⟩
    split at hb <;> exact hb
  | _ =>
    simp only [submitStep, Shared.withLock, Shared.lower] at h
    repeat' split at h
    all_goals cases h
    all_goals first | exact ⟨hb, rfl⟩ | exact absurd rfl hb | exact ⟨Option.some_ne_none _, rfl⟩

theorem submit_live {a : SubmitPc} (h : submitStep sh j c a = some (sh', p')) :
    sh'.state.liveWorkers = sh.state.liveWorkers := by
  cases a
  all_goals simp only [submitStep, Shared.withLock, Shared.lower] at h
  all_goals repeat' split at h
  all_goals cases h
  all_goals rfl

theorem count_own (inv : Consistent False False sh (p ::ₘ rest)) (h : step sh c p = some (sh', p'))
    (hs : stored sh' = stored sh) (d : Counter) :
    sh'.acct.count d + Book.sum d p.holdings = sh.acct.count d + Book.sum d p'.holdings := by
  have inv' := inv.step_preserved ⟨False.elim, False.elim⟩ h
  have hold := Law.counts inv.recorded d
  have hnew := Law.counts inv'.recorded d
  simp only [Book.sum, Multiset.cons_bind, hs, total_add] at hold hnew ⊢
  omega

theorem inflight_own (inv : Consistent False False sh (p ::ₘ rest)) (h : step sh c p = some (sh', p')) :
    sh'.acct.inflightCount + p.inside.toNat = sh.acct.inflightCount + p'.inside.toNat := by
  have inv' := inv.step_preserved ⟨False.elim, False.elim⟩ h
  have hold := inv.gauged .inflight
  have hnew := inv'.gauged .inflight
  rw [total_cons] at hold hnew
  simp only [Gauge.value, Gauge.weight] at hold hnew
  omega

section
variable {config : FixedThreadPoolConfig} {ok : Machine.Guard Shared Pc Outcome}
variable {s t u : State Shared Pc} {i : ℕ} {error : PoolJobSubmissionError} {x : ℤ}

theorem Consistent.at_actor (hu : machine.Run ok (init config) u) (hq : u.actors[i]? = some q) :
    ∃ rest, Consistent False False u.shared (q ::ₘ rest) := by
  obtain ⟨rest, hrest⟩ := Multiset.exists_cons_of_mem (Multiset.mem_coe.mpr (List.mem_of_getElem? hq))
  exact ⟨rest, hrest ▸ Consistent.of_free_run hu.free⟩

theorem Consistent.submit_step (inv : Consistent False False sh (.submit j a ::ₘ rest))
    (h : step sh c (.submit j a) = some (sh', p')) : ∃ b, p' = .submit j b :=
  Pc.eq_submit ((step_work h).caller (inv.sound_step h))

theorem rejected_count (hs : machine.Run ok (init config) s) (hi : s.actors[i]? = some (.submit j .enter))
    (ht : t.actors[i]? = some (.submit j (.returned (some error)))) {d : Counter}
    (h : machine.Tally ok i (fun sh => (sh.acct.count d : ℤ)) s t x) : x = 0 := by
  have hz : ∀ ph : Phase, Book.sum d {(j, ph)} = Phase.weight d ph := fun ph => total_singleton _ _
  have hstart : Phase.weight d .offered = 0 := by cases d <;> rfl
  have hend : Phase.weight d (.rejected error) = 0 := by cases d <;> rfl
  have hfirst : (0 : ℤ) = ((Book.sum d {(j, Phase.offered)} : ℕ) : ℤ) := by
    rw [hz, hstart]
    rfl
  have key : ∃ q, t.actors[i]? = some q ∧ ∃ a, q = .submit j a ∧
      (a.phase ≠ none → x = (Book.sum d q.holdings : ℤ)) := by
    refine h.tracks (K := fun q x => ∃ a, q = .submit j a ∧
      (a.phase ≠ none → x = (Book.sum d q.holdings : ℤ))) ?_ hi ⟨_, rfl, fun _ => hfirst⟩
    rintro u q c r x hu hq hr ⟨a, rfl, hK⟩
    obtain ⟨⟨sh', p'⟩, hy, rfl⟩ := Option.map_eq_some_iff.mp hr
    obtain ⟨rest, inv⟩ := Consistent.at_actor (hs.trans hu) hq
    obtain ⟨b, rfl⟩ := inv.submit_step hy
    refine ⟨b, rfl, fun hb => ?_⟩
    obtain ⟨ha, hst⟩ := open_stored hy hb
    have hc := count_own inv hy hst d
    have hx := hK ha
    simp only at hc ⊢
    omega
  obtain ⟨q, hq, a, rfl, hx⟩ := key
  rw [ht] at hq
  cases hq
  rw [hx (Option.some_ne_none _)]
  show ((Book.sum d {(j, Phase.rejected error)} : ℕ) : ℤ) = 0
  rw [hz, hend]
  rfl

theorem rejected_inflight (hs : machine.Run ok (init config) s)
    (hi : s.actors[i]? = some (.submit j .enter)) (ht : t.actors[i]? = some (.submit j (.returned (some error))))
    (h : machine.Tally ok i (fun sh => (sh.acct.inflightCount : ℤ)) s t x) : x = 0 := by
  have key : ∃ q, t.actors[i]? = some q ∧ x = (q.inside.toNat : ℤ) := by
    refine h.tracks (K := fun q x => x = (q.inside.toNat : ℤ)) ?_ hi rfl
    intro u q c r x hu hq hr hK
    obtain ⟨y, hy, rfl⟩ := Option.map_eq_some_iff.mp hr
    obtain ⟨rest, inv⟩ := Consistent.at_actor (hs.trans hu) hq
    have hc := inflight_own inv hy
    simp only at hc ⊢
    omega
  obtain ⟨q, hq, hx⟩ := key
  rw [ht] at hq
  cases hq
  exact hx

/-- No submission adds or removes a worker. -/
theorem submission_live (hs : machine.Run ok (init config) s) (hi : s.actors[i]? = some (.submit j .enter))
    (h : machine.Tally ok i (fun sh => (sh.state.liveWorkers : ℤ)) s t x) : x = 0 := by
  have key : ∃ q, t.actors[i]? = some q ∧ ∃ a, q = .submit j a ∧ x = 0 := by
    refine h.tracks (K := fun q x => ∃ a, q = .submit j a ∧ x = 0) ?_ hi ⟨_, rfl, rfl⟩
    rintro u q c r x hu hq hr ⟨a, rfl, rfl⟩
    obtain ⟨⟨sh', p'⟩, hy, rfl⟩ := Option.map_eq_some_iff.mp hr
    obtain ⟨rest, inv⟩ := Consistent.at_actor (hs.trans hu) hq
    obtain ⟨b, rfl⟩ := inv.submit_step hy
    have hl := submit_live hy
    simp only at hl ⊢
    exact ⟨b, rfl, by omega⟩
  obtain ⟨q, hq, a, -, hx⟩ := key
  exact hx

theorem mem_history_along {ev : JobEvent} (hs : machine.Run ok (init config) s)
    (he : ev ∈ s.shared.history j) (h : machine.Run ok s t) : ev ∈ t.shared.history j := by
  refine invariant_along (J := fun sh _ => ev ∈ sh.history j) hs ?_ ?_ h he
  · exact fun sh p rest c sh' p' _ hk _ hm => (step_work hm).mem_history hk
  · intro sh ps op sh' p _ hk hm
    rw [invoke_same hm]
    exact hk

theorem returned_stays {result : SubmitResult} (h : machine.Run ok t u)
    (ht : t.actors[i]? = some (.submit j (.returned result))) : u.actors[i]? = some (.submit j (.returned result)) := by
  have key : ∃ q, u.actors[i]? = some q ∧ q = .submit j (.returned result) := by
    refine h.tracks (K := fun _ q => q = .submit j (.returned result)) ?_ ?_ ht rfl
    · intro v w q c r _ _ _ hr _ hK
      obtain ⟨y, hy, rfl⟩ := Option.map_eq_some_iff.mp hr
      subst hK
      cases hy
    · exact fun _ _ _ _ _ _ hK => hK
  obtain ⟨q, hq, rfl⟩ := key
  exact hq

structure Traceless (j : JobId) (error : PoolJobSubmissionError) (sh : Shared) : Prop where
  queue : j ∉ sh.globalQueue
  history : sh.history j = Phase.history (.rejected error)

theorem traceless_of_returned (hu : machine.Run ok (init config) u)
    (hm : .submit j (.returned (some error)) ∈ u.actors) : Traceless j error u.shared := by
  have law : Law _ _ _ _ := (Consistent.of_free_run hu.free).recorded
  have hbook : (j, Phase.rejected error) ∈ book u.shared u.actors :=
    Multiset.mem_add.mpr (Or.inr (Multiset.mem_bind.mpr
      ⟨_, Multiset.mem_coe.mpr hm, Multiset.mem_singleton_self (j, Phase.rejected error)⟩))
  refine ⟨fun hq => ?_, law.traced _ hbook⟩
  have hqueued := law.eq_of_mem hbook (Multiset.mem_add.mpr (Or.inl (Book.mem_stored hq)))
  cases hqueued

/-- The job of a rejected submission was never in the injector. -/
theorem never_queued (hu : machine.Run ok (init config) u) (h : machine.Run ok u t)
    (hm : .submit j (.returned (some error)) ∈ t.actors) : j ∉ u.shared.globalQueue := by
  intro hq
  have law : Law _ _ _ _ := (Consistent.of_free_run hu.free).recorded
  have he : (j, Phase.queued) ∈ stored u.shared := Book.mem_stored hq
  have hacc : .acceptEnd ∈ u.shared.history j := by
    rw [law.traced _ (Multiset.mem_add.mpr (Or.inl he))]
    exact (Book.stored_phase he).1
  have hend := mem_history_along hu hacc h
  rw [(traceless_of_returned (hu.trans h) hm).history] at hend
  cases error <;> simp [Phase.history] at hend

end

end ThreadPools.Fixed
