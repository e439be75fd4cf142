import ThreadPools.Fixed.Workers

/-! # Exactly-once outcome in the fixed pool -/
namespace ThreadPools.Fixed
open Interleaving
open Move (call)

variable {sh sh' : Shared} {p p' q : Pc} {ps rest : Multiset Pc} {c : Outcome} {j : JobId}

def StopPc.waited : StopPc → Bool
  | .subWaiter _ | .readRunning _ | .drain _ _ => true
  | _ => false

def Pc.drained : Pc → Bool
  | .stop (.begin _ _ _) | .stop (.beginCancelling _ _ _ _) | .stop (.afterCancelling _ _)
  | .stop (.afterCancelled _ _ _) | .stop (.notifyAll _ _) | .stop (.next _ _) | .stop (.finalNotify _)
  | .stop (.returned _) | .cancel _ (.stop _ _ _) => true
  | _ => false

def Emptied (sh : Shared) : Prop := sh.acct.Sealed 1 ∧ sh.globalQueue = []

def Stops (sh : Shared) (p : Pc) : Prop :=
  (∀ q, p = .stop q → q.waited = true → sh.acct.Sealed 1) ∧ (p.drained = true → Emptied sh)

theorem Emptied.step (he : Emptied sh) (law : Gauged sh (p ::ₘ rest)) {B : Book} (rec : Recorded sh (p.onto B))
    (h : step sh c p = some (sh', p')) : Emptied sh' := by
  have hin : sh.acct.inflightCount = 0 := he.1.2 .inflight (by decide)
  refine ⟨sealed_step he.1 (step_effect h) law rec, ?_⟩
  refine List.eq_nil_iff_forall_not_mem.mpr fun j hj => ?_
  rcases (step_work h).queue j hj with hq | rfl
  · rw [he.2] at hq
    cases hq
  · have hle := law.le_value .inflight
    simp [Gauge.weight, Gauge.value, Pc.inside, SubmitPc.inside, hin] at hle

theorem sealed_of_zero (hc : sh.acct.admission.closed = true) (hz : ¬ 0 < sh.acct.inflightCount) :
    sh.acct.Sealed 1 := by
  refine ⟨hc, fun r hr => ?_⟩
  cases r with
  | inflight => exact Nat.eq_zero_of_not_pos hz
  | _ => simp [IdleRead.rank] at hr

theorem Stops.of_stop {q : StopPc} (hw : q.waited = true → sh.acct.Sealed 1)
    (hd : (Pc.stop q).drained = true → Emptied sh) : Stops sh (.stop q) := by
  refine ⟨fun q' hq hw' => ?_, hd⟩
  obtain rfl := Pc.stop.inj hq
  exact hw hw'

theorem Stops.of_other (hq : ∀ q, p ≠ .stop q) (hd : p.drained = true → Emptied sh) : Stops sh p :=
  ⟨fun q h _ => absurd h (hq q), hd⟩

theorem stops_own {exitGuard parkGuard : Prop} (inv : Consistent exitGuard parkGuard sh (p ::ₘ rest))
    (hk : Stops sh p) (h : step sh c p = some (sh', p')) : Stops sh' p' := by
  have hkn := inv.known p (Multiset.mem_cons_self p rest)
  have keep : p.drained = true → Emptied sh' := fun hd => (hk.2 hd).step inv.gauged inv.onto h
  have hseal : ∀ q, p = .stop q → q.waited = true → sh'.acct.Sealed 1 :=
    fun q hq hw => sealed_step (hk.1 q hq hw) (step_effect h) inv.gauged inv.onto
  have hclosed : ∀ q, p = .stop q → q.stopped = true → sh.acct.admission.closed = true := by
    rintro q rfl hs
    refine inv.closed fun hl => ?_
    have := hkn.1 hs
    simp [hl, ExecutorServiceLifecycle.rank] at this
  -- No other call becomes a stop call.
  by_cases hcall : p.call = some .stop
  case neg =>
    by_cases hn : ∀ e, p' ≠ .panicked e
    · have hcall' : p'.call ≠ some .stop := by rwa [(step_work h).caller hn]
      refine ⟨fun q hq _ => absurd (hq ▸ rfl) hcall', fun hd => absurd ?_ hcall'⟩
      unfold Pc.drained at hd
      split at hd <;> first | rfl | cases hd
    · obtain ⟨e, he⟩ := not_forall.mp hn
      rw [not_not.mp he]
      exact .of_other (by rintro _ ⟨⟩) (by rintro ⟨⟩)
  cases p with
  | stop p =>
    cases p with
    | readInflight info =>
      simp only [step, stopStep] at h
      split at h <;> cases h
      · exact .of_stop (by rintro ⟨⟩) (by rintro ⟨⟩)
      · exact .of_stop (fun _ => sealed_of_zero (hclosed _ rfl rfl) ‹_›) (by rintro ⟨⟩)
    | recheck info =>
      simp only [step, stopStep] at h
      split at h <;> cases h
      · exact .of_stop (by rintro ⟨⟩) (by rintro ⟨⟩)
      · exact .of_stop (fun _ => sealed_of_zero (hclosed _ rfl rfl) ‹_›) (by rintro ⟨⟩)
    | subWaiter info =>
      simp only [step, stopStep] at h
      split at h <;> cases h
      · exact .of_stop (fun _ => hseal _ rfl rfl) (by rintro ⟨⟩)
      · exact .of_other (by rintro _ ⟨⟩) (by rintro ⟨⟩)
    | readRunning info =>
      cases h
      exact .of_stop (fun _ => hseal _ rfl rfl) (by rintro ⟨⟩)
    | drain info jobs =>
      simp only [step, stopStep] at h
      split at h <;> cases h
      · exact .of_stop (by rintro ⟨⟩) fun _ => ⟨hseal _ rfl rfl, ‹_›⟩
      · exact .of_stop (fun _ => hseal _ rfl rfl) (by rintro ⟨⟩)
    | lockState info =>
      obtain ⟨s, hs, h⟩ := Option.map_eq_some_iff.mp h
      cases hl : s.state.lifecycle <;> simp only [hl] at h <;> cases h
      all_goals exact .of_stop (by rintro ⟨⟩) (by rintro ⟨⟩)
    | begin info begun jobs =>
      cases jobs with
      | nil =>
        cases h
        exact .of_stop (by rintro ⟨⟩) fun _ => keep rfl
      | cons i jobs =>
        simp only [step, stopStep, Shared.lower] at h
        split at h <;> cases h
        · exact .of_stop (by rintro ⟨⟩) fun _ => keep rfl
        · exact .of_other (by rintro _ ⟨⟩) (by rintro ⟨⟩)
    | next jobs report =>
      cases jobs <;> cases h
      · exact .of_stop (by rintro ⟨⟩) fun _ => keep rfl
      · exact .of_other (by rintro _ ⟨⟩) fun _ => keep rfl
    | _ =>
      simp only [step, stopStep, Shared.lock, Shared.withLock] at h
      repeat' split at h
      all_goals cases h
      all_goals first | exact .of_stop (by rintro ⟨⟩) fun _ => keep rfl | exact .of_stop (by rintro ⟨⟩) (by rintro ⟨⟩)
  | cancel p k =>
    cases k with
    | worker i => cases hcall
    | stop i jobs report =>
      cases p
      all_goals simp only [step, cancelStep, Shared.withLock, Shared.lower] at h
      all_goals repeat' split at h
      all_goals cases h
      all_goals first | exact .of_stop (by rintro ⟨⟩) fun _ => keep rfl | exact .of_other (by rintro _ ⟨⟩) fun _ => keep rfl
  | idle r k => cases k <;> cases hcall
  | _ => cases hcall

/-- A worker that has decided to run job `j` and has not called it yet. -/
def Pc.claims (j : JobId) : Pc → Bool
  | .worker (.claimQueued i) | .worker (.claimRunning i) | .worker (.claimSlot i)
  | .worker (.callRun i) => i == j
  | _ => false

/-- The decision to run a job is taken on reading `stop_now` after the job was stolen. -/
theorem claims_step (h : step sh c p = some (sh', p')) (hc : p'.claims j = true) :
    p.claims j = true ∨
      p = .worker (.acceptStop j) ∧ sh.stopNow = false ∧ p' = .worker (.claimQueued j) := by
  unfold Pc.claims at hc
  split at hc
  · obtain ⟨w, rfl, hw⟩ := worker_step h rfl
    obtain ⟨rfl, hst⟩ := workerStep_arrives hw
    obtain rfl := beq_iff_eq.mp hc
    exact Or.inr ⟨rfl, hst, rfl⟩
  · obtain ⟨w, rfl, hw⟩ := worker_step h rfl
    obtain rfl := workerStep_arrives hw
    exact Or.inl hc
  · obtain ⟨w, rfl, hw⟩ := worker_step h rfl
    obtain rfl := workerStep_arrives hw
    exact Or.inl hc
  · obtain ⟨w, rfl, hw⟩ := worker_step h rfl
    obtain rfl := workerStep_arrives hw
    exact Or.inl hc
  · cases hc

section
variable {config : FixedThreadPoolConfig} {ok : Machine.Guard Shared Pc Outcome} {s t u : State Shared Pc}

theorem stops_of_run (h : machine.Run ok (init config) t) : ∀ p ∈ t.actors, Stops t.shared p := by
  refine known_along .refl ?_ ?_ ?_ h ?_
  · exact fun sh p rest c sh' p' inv hk _ hs => stops_own inv hk hs
  · intro sh p rest c sh' p' q inv _ hk _ hs
    refine ⟨fun r hr hw => ?_, fun hd => (hk.2 hd).step inv.gauged inv.onto hs⟩
    exact sealed_step (hk.1 r hr hw) (step_effect hs) inv.gauged inv.onto
  · intro sh ps op sh' p _ hs
    rw [invoke_same hs]
    refine ⟨?_, fun q _ hk => hk⟩
    cases op with
    | submit k =>
      simp only [invoke] at hs
      split at hs <;> cases hs
      exact ⟨(by rintro _ ⟨⟩), (by rintro ⟨⟩)⟩
    | _ =>
      cases hs
      refine ⟨?_, (by rintro ⟨⟩)⟩
      rintro q hq hw
      cases hq <;> cases hw
  · intro p hp
    rw [List.eq_of_mem_replicate hp]
    exact ⟨(by rintro _ ⟨⟩), (by rintro ⟨⟩)⟩

/-- Once a stop call has finished its drain the injector stays empty. -/
theorem emptied_for_good (hs : machine.Run ok (init config) s) {p : Pc} (hp : p ∈ s.actors)
    (hd : p.drained = true) (h : machine.Run ok s t) : Emptied t.shared := by
  refine invariant_along (J := fun sh _ => Emptied sh) hs ?_ ?_ h ((stops_of_run hs p hp).2 hd)
  · exact fun sh p rest c sh' p' inv he _ hm => he.step inv.gauged inv.onto hm
  · intro sh ps op sh' p _ he hm
    rw [invoke_same hm]
    exact he

/-- A worker reads `stop_now` as false between stealing a job and running it. -/
theorem claimed_after_read (h : machine.Run Machine.free (init config) t)
    (hc : .runBegin ∈ t.shared.history j ∨ ∃ p ∈ t.actors, p.claims j = true) :
    ∃ (u v : State Shared Pc) (i : ℕ), machine.Run Machine.free (init config) u ∧ machine.Follows Machine.free u v ∧
      machine.Run Machine.free v t ∧ u.actors[i]? = some (.worker (.acceptStop j)) ∧
      u.shared.stopNow = false ∧ v.actors[i]? = some (.worker (.claimQueued j)) := by
  induction h with
  | refl =>
    rcases hc with hc | ⟨p, hp, hc⟩
    · cases hc
    · rw [List.eq_of_mem_replicate hp] at hc
      cases hc
  | @tail a b ha hf ih =>
    -- The decision was taken before this step, or the step is the decision.
    suffices hcase : (.runBegin ∈ a.shared.history j ∨ ∃ p ∈ a.actors, p.claims j = true) ∨
        ∃ i : ℕ, a.actors[i]? = some (.worker (.acceptStop j)) ∧ a.shared.stopNow = false ∧
          b.actors[i]? = some (.worker (.claimQueued j)) by
      rcases hcase with hold | ⟨i, hi, hst, hi'⟩
      · obtain ⟨u, v, i, hu, huv, hv, hrest⟩ := ih hold
        exact ⟨u, v, i, hu, huv, hv.tail hf, hrest⟩
      · exact ⟨a, b, i, ha, hf, .refl, hi, hst, hi'⟩
    cases hf with
    | @act i c p r hp hr _ =>
      obtain ⟨x, hx, rfl⟩ := Option.map_eq_some_iff.mp hr
      have hmem : p ∈ a.actors := List.mem_of_getElem? hp
      rcases hc with hc | ⟨q, hq, hc⟩
      · rcases (step_work hx).history with hh | ⟨k, e, hh, hrun⟩
        · exact Or.inl (Or.inl (hh ▸ hc))
        · simp only [hh] at hc
          by_cases hk : j = k
          · subst hk
            rw [Function.update_self, List.mem_append, List.mem_singleton] at hc
            rcases hc with hc | rfl
            · exact Or.inl (Or.inl hc)
            · exact Or.inl (Or.inr ⟨p, hmem, by rw [hrun rfl]; exact beq_self_eq_true j⟩)
          · rw [Function.update_of_ne hk] at hc
            exact Or.inl (Or.inl hc)
      · simp only [List.append_nil] at hq
        rcases List.mem_or_eq_of_mem_set hq with hq | rfl
        · exact Or.inl (Or.inr ⟨q, hq, hc⟩)
        · rcases claims_step hx hc with hp' | ⟨rfl, hst, hq'⟩
          · exact Or.inl (Or.inr ⟨p, hmem, hp'⟩)
          · refine Or.inr ⟨i, hp, hst, ?_⟩
            obtain ⟨hlt, -⟩ := List.getElem?_eq_some_iff.mp hp
            simp only [List.append_nil, List.getElem?_set_self hlt, hq']
    | @call op r hc' =>
      rcases hc with hc | ⟨q, hq, hc⟩
      · rw [invoke_same hc'] at hc
        exact Or.inl (Or.inl hc)
      · rcases List.mem_append.mp hq with hq | hq
        · exact Or.inl (Or.inr ⟨q, hq, hc⟩)
        · rw [List.mem_singleton.mp hq] at hc
          exfalso
          cases op with
          | submit k =>
            simp only [machine, invoke] at hc'
            split at hc' <;> cases hc'
            cases hc
          | _ =>
            cases hc'
            cases hc

def Pc.owns (j : JobId) (p : Pc) : ℕ := Book.owners j p.holdings

/-- The owners besides the injector: the submitter of the job, a worker and a stop call. -/
def Pc.mayOwn (j : JobId) (p : Pc) : Bool :=
  p.call == some (.submit j) || p.call == some .worker || p.call == some .stop

theorem Pc.mayOwn_of_owns {p : Pc} (h : 0 < p.owns j) : p.mayOwn j = true := by
  obtain ⟨e, he, hpos⟩ := total_pos_iff.mp h
  cases p with
  | submit i q =>
    have hj : e.1 = j := by
      by_contra hne
      simp [hne] at hpos
    have hi : e.1 = i := by
      cases hq : q.phase with
      | none => simp [Pc.holdings, Pc.onto, Book.single, hq] at he
      | some ph =>
        simp only [Pc.holdings, Pc.onto, Book.single, hq, Option.map_some, Multiset.mem_cons,
          Multiset.notMem_zero, or_false] at he
        rw [he]
    simp [Pc.mayOwn, Pc.call, hi.symm.trans hj]
  | worker q => simp [Pc.mayOwn, Pc.call]
  | stop q => simp [Pc.mayOwn, Pc.call]
  | cancel q k => cases k <;> simp [Pc.mayOwn, Pc.call, CancelCaller.call]
  | _ => exact absurd he (Multiset.notMem_zero e)

/-- However submitters, workers and stop calls interleave, a job whose submission
returned `Ok` is owned by exactly one of them or by the injector until its accounting
ends; it is run or cancelled, once; a worker runs it only on reading `stop_now` as false
after stealing it; and after the drain of a stop call the injector stays empty, so that a
job that is not finished is held by a worker or by a stop call. -/
theorem outcome_exactly_once (h : machine.Run Machine.free (init config) t) (j : JobId) :
    Phase.ExactlyOnce (t.shared.history j) ∧
      (.submit j (.returned none) ∈ t.actors → .acceptEnd ∈ t.shared.history j) ∧
      (.acceptEnd ∈ t.shared.history j → .accounted ∉ t.shared.history j →
        t.shared.globalQueue.count j + total (Pc.owns j) t.actors = 1 ∧
          ∀ p ∈ t.actors, 0 < p.owns j → p.mayOwn j = true) ∧
      (.runBegin ∈ t.shared.history j →
        ∃ (u v : State Shared Pc) (i : ℕ), machine.Run Machine.free (init config) u ∧ machine.Follows Machine.free u v ∧
          machine.Run Machine.free v t ∧ u.actors[i]? = some (.worker (.acceptStop j)) ∧
          u.shared.stopNow = false ∧ v.actors[i]? = some (.worker (.claimQueued j))) ∧
      ((∃ p ∈ t.actors, p.drained = true) → ∀ u, machine.Run Machine.free t u →
        u.shared.globalQueue = [] ∧
          (.acceptEnd ∈ u.shared.history j → .accounted ∉ u.shared.history j →
            ∃ p ∈ u.actors, 0 < p.owns j ∧ (p.call = some .worker ∨ p.call = some .stop))) := by
  have owners : ∀ v, machine.Run Machine.free (init config) v → .acceptEnd ∈ v.shared.history j →
      .accounted ∉ v.shared.history j → v.shared.globalQueue.count j + total (Pc.owns j) v.actors = 1 := by
    intro v hv ha hu
    have ho := (Consistent.of_free_run hv).recorded.owners_eq_one ha hu
    rwa [Book.owners, total_add, total_bind, ← Book.owners, stored, Book.stored_owners] at ho
  refine ⟨(Consistent.of_free_run h).recorded.exactlyOnce j, fun hm => accepted_of_ok h hm rfl,
    fun ha hu => ⟨owners t h ha hu, fun p _ ho => Pc.mayOwn_of_owns ho⟩,
    fun hr => claimed_after_read h (Or.inl hr), ?_⟩
  rintro ⟨p, hp, hd⟩ u hu
  have he := emptied_for_good h hp hd hu
  refine ⟨he.2, fun ha hn => ?_⟩
  have hone := owners u (h.trans hu) ha hn
  rw [he.2, List.count_nil, Nat.zero_add] at hone
  obtain ⟨q, hq, hpos⟩ := total_pos_iff.mp (Nat.lt_of_lt_of_eq Nat.one_pos hone.symm)
  refine ⟨q, hq, hpos, ?_⟩
  -- A submitter that holds the job would be in flight.
  have hmay := Pc.mayOwn_of_owns hpos
  simp only [Pc.mayOwn, Bool.or_eq_true, beq_iff_eq, or_assoc] at hmay
  rcases hmay with hs | hw
  · obtain ⟨w, rfl⟩ := Pc.eq_submit hs
    exfalso
    have hin := (Consistent.of_free_run (h.trans hu)).gauged.eq_zero (g := .inflight)
      (he.1.2 .inflight (by decide)) _ (Multiset.mem_coe.mpr hq)
    obtain ⟨e, hmem, hout⟩ := total_pos_iff.mp hpos
    cases w with
    | enter =>
      obtain rfl := Multiset.mem_singleton.mp hmem
      simp [Phase.outstanding, Phase.history] at hout
    | departGate result | departWaiters result | departNotify result | returned result =>
      cases result with
      | none => exact absurd hmem (Multiset.notMem_zero e)
      | some error =>
        obtain rfl := Multiset.mem_singleton.mp hmem
        cases error <;> simp [Phase.outstanding, Phase.history] at hout
    | _ => simp [Gauge.weight, Pc.inside, SubmitPc.inside] at hin
  · exact hw

end

/-- The worker runs job 0 when a stop call drains job 1. -/
def stoppedSchedule : List (Move Outcome Op) :=
  call (Op.submit 0) :: turns 1 11 Outcome.ok ++ call (Op.submit 1) :: turns 2 11 Outcome.ok ++
    turns 0 8 Outcome.ok ++ call Op.stop :: turns 3 9 Outcome.ok

theorem outcome_exactly_once_stopped : ∃ t, machine.Run Machine.free (init soleWorker) t ∧
    t.shared.history 0 = [.acceptBegin, .acceptEnd, .runBegin] ∧
      (∃ (u : State Shared Pc) (i : ℕ), machine.Run Machine.free (init soleWorker) u ∧
        u.actors[i]? = some (.worker (.acceptStop 0)) ∧ u.shared.stopNow = false) ∧
      t.shared.globalQueue = [] ∧
      ∃ p ∈ t.actors, 0 < p.owns 1 ∧ (p.call = some .worker ∨ p.call = some .stop) := by
  have hexec : (machine.exec Machine.free (init soleWorker) stoppedSchedule).map
      (fun t => (t.shared.history 0, t.shared.history 1, t.actors[3]?.map Pc.drained)) =
      some ([.acceptBegin, .acceptEnd, .runBegin], [.acceptBegin, .acceptEnd], some true) := by
    decide
  obtain ⟨t, hrun, ht⟩ := machine.exec_reaches hexec
  simp only [Prod.mk.injEq] at ht
  obtain ⟨h0, h1, hd⟩ := ht
  obtain ⟨p, hp, hd⟩ := Option.map_eq_some_iff.mp hd
  obtain ⟨u, -, i, hu, -, -, hi, hs, -⟩ := (outcome_exactly_once hrun 0).2.2.2.1 (by simp [h0])
  obtain ⟨hq, hown⟩ := (outcome_exactly_once hrun 1).2.2.2.2 ⟨p, List.mem_of_getElem? hp, hd⟩ t .refl
  exact ⟨t, hrun, h0, ⟨u, i, hu, hi, hs⟩, hq, hown (by simp [h1]) (by simp [h1])⟩

end ThreadPools.Fixed
