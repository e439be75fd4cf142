import ThreadPools.Fixed.Notifications

/-! # The counts of a stop report

A stop call that stored the lifecycle adds the jobs it drained to what it reads off
the counters `cancelling` and `cancelled`, one after the other. A cancellation that
is counted in both of them, or moves from one to the other in between, is reported
twice. When no job is seen twice, no report exceeds the cancellations that have begun.
-/
namespace ThreadPools.Fixed
open Interleaving
open Move (call)
open Book (entered total_entered)

/-- Has counted a cancellation as cancelled and not yet taken it out of `cancelling`. -/
def Pc.settles : Pc → Bool
  | .cancel .subCancelling _ => true
  | _ => false

def Pc.concludes : Pc → Bool
  | .cancel .addCancelled _ => true
  | _ => false

/-- A stop call whose report adds the two counters, before its read of the first one. -/
def Pc.reads : Pc → Bool
  | .stop (.afterCancelling info _) => info.isNewStop
  | _ => false

def Pc.rereads : Pc → Bool
  | .stop (.afterCancelled info _ _) => info.isNewStop
  | _ => false

/-- No cancellation is seen in both counters by a stop call that adds them up: at the
first read none is between its two updates, and none becomes `cancelled` until the
second read. -/
def SeenOnce : Machine.Guard Shared Pc Outcome := fun _ ps p _ =>
  (p.reads = true → ∀ q ∈ ps, q.settles = false) ∧ (p.concludes = true → ∀ q ∈ ps, q.rereads = false)

instance (sh : Shared) (ps : Multiset Pc) (p : Pc) (c : Outcome) : Decidable (SeenOnce sh ps p c) :=
  inferInstanceAs (Decidable ((_ → _) ∧ (_ → _)))

def Pc.report : Pc → Option StopReport
  | .stop (.notifyAll _ r) | .stop (.next _ r) | .stop (.finalNotify r) | .stop (.returned r)
  | .cancel _ (.stop _ _ r) => some r
  | _ => none

structure Counted (begun cancelled : ℕ) (p : Pc) : Prop where
  report : ∀ r ∈ p.report, r.queued ≤ begun ∧ r.cancelled ≤ begun
  reads : ∀ info jobs cancelling, p = .stop (.afterCancelled info jobs cancelling) → info.isNewStop = true →
    jobs.length ≤ cancelling ∧ cancelling + cancelled ≤ begun

variable {sh sh' : Shared} {p p' q : Pc} {rest ps : Multiset Pc} {c : Outcome} {n n' m m' : ℕ}

/-- Only the actor that settles a job holds it in that phase. -/
theorem holdings_settling (p : Pc) :
    total (fun e : JobId × Phase => if e.2 = .settling then 1 else 0) p.holdings = p.settles.toNat := by
  unfold Pc.holdings
  cases p with
  | submit j p =>
    cases p with
    | leave r | departGate r | departWaiters r | departNotify r | returned r => cases r <;> rfl
    | _ => rfl
  | worker p => cases p <;> rfl
  | stop p =>
    cases p <;> simp [Pc.onto, StopPc.holdings, Pc.settles, total_entered fun ph => if ph = .settling then 1 else 0]
  | cancel p k =>
    cases p <;> simp [Pc.onto, CancelPc.phase, Pc.settles, total_entered fun ph => if ph = .settling then 1 else 0]
  | _ => rfl

/-- The actors that settle a job are the only ones seen in both counters. -/
theorem begun_settles (h : Recorded sh (ps.bind Pc.holdings)) :
    sh.acct.count .cancelling + sh.acct.count .cancelled =
      (book sh ps).begun + total (fun p => p.settles.toNat) ps := by
  have hz : total (fun e : JobId × Phase => if e.2 = .settling then 1 else 0) (stored sh) = 0 := by
    refine total_eq_zero_iff.mpr fun e he => if_neg fun hs => ?_
    have := (Book.stored_phase he).2.1
    rw [hs] at this
    cases this
  rw [h.cancel_counts, total_add, hz, Nat.zero_add, total_bind, total_congr fun p _ => holdings_settling p]
  rfl

/-- The jobs whose cancellation an actor has begun are among the begun ones. -/
theorem begun_held (sh : Shared) (p : Pc) (rest : Multiset Pc) : p.holdings.begun ≤ (book sh (p ::ₘ rest)).begun := by
  rw [book, Multiset.cons_bind, Book.begun, Book.begun, total_add, total_add]
  omega

theorem settles_step (h : step sh c p = some (sh', p')) (hs : p'.settles = true) :
    ∃ k, p = .cancel .addCancelled k := by
  unfold Pc.settles at hs
  split at hs
  · rename_i k
    cases p with
    | cancel q k' =>
      cases q with
      | addCancelled => exact ⟨k', rfl⟩
      | done => cases k' <;> cases h
      | _ =>
        simp only [step, cancelStep, Shared.withLock, Shared.lower] at h
        repeat' split at h
        all_goals cases h
    | worker q => cases (workerStep_arrives h).1
    | stop q => cases stopStep_arrives h
    | idle r k' =>
      have hc : k'.call = k.call := (Option.some.inj ((step_work h).caller (by rintro _ ⟨⟩))).symm
      cases k' with
      | finishedRunning =>
        simp only [step, idleStep] at h
        repeat' split at h
        all_goals cases h
      | _ => cases k <;> cases hc
    | _ =>
      have hc := (step_work h).caller (by rintro _ ⟨⟩)
      cases k <;> cases hc
  · cases hs

/-- No step takes back a cancellation that has begun. -/
theorem begun_step (hr : Recorded sh ((p ::ₘ rest).bind Pc.holdings))
    (hr' : Recorded sh' ((p' ::ₘ rest).bind Pc.holdings)) (h : step sh c p = some (sh', p')) :
    (book sh (p ::ₘ rest)).begun ≤ (book sh' (p' ::ₘ rest)).begun := by
  have hb := begun_settles hr
  have hb' := begun_settles hr'
  have hcc := (step_relief h).count .cancelling
  have hcd := (step_relief h).count .cancelled
  have hlow : ¬ p.lowers = some .cancelled := by
    unfold Pc.lowers
    split <;> simp
  rw [total_cons] at hb hb'
  have hcd := hcd.resolve_right hlow
  by_cases hs : p'.settles = true
  · obtain ⟨k, rfl⟩ := settles_step h hs
    cases h
    have h₁ : (sh.raise .cancelled).acct.count .cancelling = sh.acct.count .cancelling :=
      PoolAccounting.add_count _ _ _
    have h₂ : (sh.raise .cancelled).acct.count .cancelled = sh.acct.count .cancelled + 1 :=
      PoolAccounting.add_count _ _ _
    have h₃ : (Pc.cancel .subCancelling k).settles.toNat = 1 := rfl
    omega
  · rw [Bool.eq_false_iff.mpr hs, Bool.toNat_false] at hb'
    rcases hcc with hcc | hcc
    · omega
    · unfold Pc.lowers at hcc
      split at hcc <;> cases hcc
      rename_i k
      simp only [step, cancelStep, Shared.lower] at h
      split at h
      · rename_i a ha
        cases h
        have h₁ := PoolAccounting.sub_count ha .cancelling
        simp only [if_true] at h₁
        have h₂ : (Pc.cancel .subCancelling k).settles.toNat = 1 := rfl
        have h₃ : (sh.setAcct a).acct.count .cancelling = a.count .cancelling := rfl
        omega
      · rename_i ha
        cases h
        omega

namespace Counted

theorem mono (h : Counted n m p) (hn : n ≤ n') (hm : m' ≤ m ∨ p.rereads = false) : Counted n' m' p := by
  refine ⟨fun r hr => ?_, fun info jobs cancelling hp hnew => ?_⟩
  · obtain ⟨hq, hc⟩ := h.report r hr
    exact ⟨hq.trans hn, hc.trans hn⟩
  · obtain ⟨hd, hs⟩ := h.reads info jobs cancelling hp hnew
    refine ⟨hd, ?_⟩
    rcases hm with hm | hm
    · omega
    · subst hp
      rw [Pc.rereads, hnew] at hm
      cases hm

theorem of_fresh (hr : p.report = none) (ha : ∀ info jobs cancelling, p ≠ .stop (.afterCancelled info jobs cancelling)) :
    Counted n m p := by
  refine ⟨fun r h => ?_, fun info jobs cancelling hp => absurd hp (ha info jobs cancelling)⟩
  rw [hr] at h
  cases h

theorem of_report {r : StopReport} (hr : p.report = some r) (hq : r.queued ≤ n ∧ r.cancelled ≤ n) :
    Counted n m p := by
  refine ⟨fun r' h => ?_, fun info jobs cancelling hp => ?_⟩
  · rw [hr] at h
    cases h
    exact hq
  · subst hp
    cases hr

theorem of_call (hc : p.call ≠ some .stop) : Counted n m p := by
  cases p with
  | stop q => exact absurd rfl hc
  | cancel q k =>
    cases k with
    | worker j => exact of_fresh rfl (by rintro _ _ _ ⟨⟩)
    | stop j rest r => exact absurd rfl hc
  | _ => exact of_fresh rfl (by rintro _ _ _ ⟨⟩)

/-- The second read completes the report. -/
theorem of_reads {info : StopInfo} {jobs : List JobId} {cancelling : ℕ}
    (h : Counted n m (.stop (.afterCancelled info jobs cancelling))) (hj : jobs.length ≤ n) :
    (info.report jobs.length cancelling m).queued ≤ n ∧ (info.report jobs.length cancelling m).cancelled ≤ n := by
  unfold StopInfo.report
  split
  · rename_i hnew
    obtain ⟨hd, hs⟩ := h.reads info jobs cancelling rfl hnew
    have hle : jobs.length + (cancelling - info.cancelling - jobs.length) + (m - info.cancelled) ≤ n := by omega
    exact ⟨hle, hle⟩
  · exact ⟨hj, hj⟩

end Counted

theorem begun_entered (jobs : List JobId) : (entered .withdrawn jobs 0).begun = jobs.length := by
  rw [Book.begun, total_entered fun ph => ph.cancels.toNat]
  simp [Phase.cancels]

/-- A stop call learns its counts from its own two reads. -/
theorem stopStep_counted {p : StopPc} (hr : Recorded sh ((.stop p ::ₘ rest).bind Pc.holdings))
    (hk : Counted (book sh (.stop p ::ₘ rest)).begun (sh.acct.count .cancelled) (.stop p))
    (hok : SeenOnce sh (.stop p ::ₘ rest) (.stop p) c) (h : stopStep sh p = some (sh', p'))
    (hn : (book sh (.stop p ::ₘ rest)).begun ≤ n) : Counted n (sh'.acct.count .cancelled) p' := by
  have hheld := begun_held sh (.stop p) rest
  cases p with
  | afterCancelling info jobs =>
    cases h
    refine ⟨(by rintro _ ⟨⟩), fun info' jobs' cancelling hp hnew => ?_⟩
    cases hp
    have hb := begun_settles hr
    have hz : total (fun p => p.settles.toNat) (.stop (.afterCancelling info jobs) ::ₘ rest) = 0 :=
      total_eq_zero_iff.mpr fun q hq => by rw [hok.1 hnew q hq, Bool.toNat_false]
    have hjobs : jobs.length ≤ sh.acct.count .cancelling := by
      have hw : total (fun e => Phase.weight .cancelling e.2) (Pc.stop (.afterCancelling info jobs)).holdings =
          jobs.length := (total_entered _ .withdrawn jobs 0).trans (by simp [Phase.weight])
      rw [hr.counts, Multiset.cons_bind, Book.sum, total_add, total_add, hw]
      omega
    exact ⟨hjobs, by omega⟩
  | afterCancelled info jobs cancelling =>
    cases h
    have hj : jobs.length ≤ (book sh (.stop (.afterCancelled info jobs cancelling) ::ₘ rest)).begun := by
      rw [← begun_entered jobs]
      exact hheld
    obtain ⟨hq, hc⟩ := hk.of_reads hj
    exact .of_report rfl ⟨hq.trans hn, hc.trans hn⟩
  | notifyAll jobs report | finalNotify report =>
    simp only [stopStep, Shared.withLock] at h
    repeat' split at h
    all_goals cases h
    all_goals
      obtain ⟨hq, hc⟩ := hk.report report rfl
      exact .of_report rfl ⟨hq.trans hn, hc.trans hn⟩
  | next jobs report =>
    obtain ⟨hq, hc⟩ := hk.report report rfl
    cases jobs <;> cases h
    all_goals exact .of_report rfl ⟨hq.trans hn, hc.trans hn⟩
  | _ =>
    simp only [stopStep, Shared.lock, Shared.lower] at h
    repeat' split at h
    all_goals first | (simp only [Option.map_some] at h; (repeat' split at h) <;> cases h) | cases h
    all_goals exact .of_fresh rfl (by rintro _ _ _ ⟨⟩)

theorem step_counted (hr : Recorded sh ((p ::ₘ rest).bind Pc.holdings))
    (hk : Counted (book sh (p ::ₘ rest)).begun (sh.acct.count .cancelled) p)
    (hok : SeenOnce sh (p ::ₘ rest) p c) (h : step sh c p = some (sh', p'))
    (hn : (book sh (p ::ₘ rest)).begun ≤ n) (hs : ∀ e, p' ≠ .panicked e) :
    Counted n (sh'.acct.count .cancelled) p' := by
  have hcall := (step_work h).caller hs
  cases p with
  | stop q => exact stopStep_counted hr hk hok h hn
  | cancel q k =>
    cases k with
    | worker j => exact .of_call (by rw [hcall]; rintro ⟨⟩)
    | stop j rest' report =>
      obtain ⟨hq, hc⟩ := hk.report report rfl
      cases q
      all_goals simp only [step, cancelStep, Shared.withLock, Shared.lower] at h
      all_goals repeat' split at h
      all_goals cases h
      all_goals first | exact absurd rfl (hs _) | exact .of_report rfl ⟨hq.trans hn, hc.trans hn⟩
  | idle r k => exact .of_call (by rw [hcall]; cases k <;> rintro ⟨⟩)
  | _ => exact .of_call (by rw [hcall]; rintro ⟨⟩)

/-- A call begins with nothing that is being cancelled. -/
theorem invoke_counted {op : Op} (ps : Multiset Pc) (h : invoke sh op = some (sh', p)) :
    sh'.acct = sh.acct ∧ (book sh' (p ::ₘ ps)).begun = (book sh ps).begun ∧ Counted n m p := by
  rw [book, book, Multiset.cons_bind, Book.begun, Book.begun, total_add, total_add, total_add]
  cases op with
  | submit j =>
    simp only [invoke] at h
    split at h <;> cases h
    exact ⟨rfl, congrArg (total _ (stored sh) + ·) (Nat.zero_add _), .of_fresh rfl (by rintro _ _ _ ⟨⟩)⟩
  | _ =>
    cases h
    exact ⟨rfl, congrArg (total _ (stored sh) + ·) (Nat.zero_add _), .of_fresh rfl (by rintro _ _ _ ⟨⟩)⟩

section
variable {config : FixedThreadPoolConfig} {t : State Shared Pc}

theorem counted_of_run (h : machine.Run SeenOnce (init config) t) :
    ∀ p ∈ t.actors, Counted (book t.shared t.actors).begun (t.shared.acct.count .cancelled) p := by
  refine invariant_along
    (J := fun sh ps => ∀ p ∈ ps, Counted (book sh ps).begun (sh.acct.count .cancelled) p) .refl ?_ ?_ h ?_
  · intro sh p rest c sh' p' inv hk hok hm q hq
    have inv' := inv.step_preserved ⟨False.elim, False.elim⟩ hm
    have hn := begun_step inv.recorded inv'.recorded hm
    rcases Multiset.mem_cons.mp hq with rfl | hq
    · exact step_counted inv.recorded (hk p (Multiset.mem_cons_self p rest)) hok hm hn
        (inv'.sound q (Multiset.mem_cons_self q rest))
    · refine (hk q (Multiset.mem_cons_of_mem hq)).mono hn ?_
      rcases (step_effect hm).count .cancelled with hle | hraise
      · exact Or.inl hle
      · right
        unfold Pc.raises at hraise
        split at hraise <;> cases hraise
        exact hok.2 rfl q (Multiset.mem_cons_of_mem hq)
  · intro sh ps op sh' p _ hk hm q hq
    obtain ⟨ha, hb, hp⟩ := invoke_counted ps hm
    rw [hb, ha]
    rcases Multiset.mem_cons.mp hq with rfl | hq
    · exact hp
    · exact hk q hq
  · intro p hp
    rw [List.eq_of_mem_replicate (Multiset.mem_coe.mp hp)]
    exact .of_fresh rfl (by rintro _ _ _ ⟨⟩)

/-- As long as no cancellation is seen twice, no stop report counts more jobs than the
pool has begun to cancel, all of which were accepted. -/
theorem stop_report_never_overcounts (h : machine.Run SeenOnce (init config) t) :
    ∀ report, .stop (.returned report) ∈ t.actors →
      report.queued ≤ (book t.shared t.actors).begun ∧ report.cancelled ≤ (book t.shared t.actors).begun ∧
      (book t.shared t.actors).begun ≤ t.shared.acct.count .submitted := by
  intro report hp
  obtain ⟨hq, hc⟩ := (counted_of_run h _ hp).report report rfl
  exact ⟨hq, hc, (Consistent.of_free_run (Machine.Run.free h)).recorded.begun_le_submitted⟩

end

/-- One worker that has stolen the only job, and a stop call that has set `stop_now`. -/
def stolen : List (Move Outcome Op) :=
  call (Op.submit 0) :: turns 1 11 Outcome.ok ++ turns 0 3 Outcome.ok ++ call Op.stop :: turns 2 4 Outcome.ok

/-- The worker cancels the job before the stop call takes the monitor. -/
theorem stop_report_never_overcounts_stolen : ∃ t, machine.Run SeenOnce (init ⟨1, none, by decide, nofun⟩) t ∧
    .stop (.returned ⟨1, 0, 1⟩) ∈ t.actors ∧ 1 ≤ (book t.shared t.actors).begun := by
  have hexec : (machine.exec SeenOnce (init ⟨1, none, by decide, nofun⟩)
      (stolen ++ turns 0 10 Outcome.ok ++ turns 2 10 Outcome.ok)).map
      (fun t => decide (.stop (.returned ⟨1, 0, 1⟩) ∈ t.actors)) = some true := by decide
  obtain ⟨t, hrun, ht⟩ := machine.exec_reaches hexec
  have hp := of_decide_eq_true ht
  exact ⟨t, hrun, hp, (stop_report_never_overcounts hrun _ hp).1⟩

/-- The worker has raised `cancelled` and not yet lowered `cancelling` when the only stop call
reads both: the one job that was ever accepted is reported as two cancelled ones. -/
theorem stop_report_overcounts : ∃ t, machine.Run Machine.free (init ⟨1, none, by decide, nofun⟩) t ∧
    t.actors = [.cancel .subCancelling (.worker 0), .submit 0 (.returned none), .stop (.returned ⟨2, 0, 2⟩)] ∧
    t.shared.acct.count .submitted = 1 ∧ (book t.shared t.actors).begun ≤ 1 := by
  have hexec : (machine.exec Machine.free (init ⟨1, none, by decide, nofun⟩)
      (stolen ++ turns 0 6 Outcome.ok ++ turns 2 10 Outcome.ok)).map
      (fun t => (t.actors, t.shared.acct.count .submitted)) =
        some ([.cancel .subCancelling (.worker 0), .submit 0 (.returned none), .stop (.returned ⟨2, 0, 2⟩)], 1) := by
    decide
  obtain ⟨t, hrun, ht⟩ := machine.exec_reaches hexec
  obtain ⟨hp, hs⟩ := Prod.ext_iff.mp ht
  replace hs : t.shared.acct.count .submitted = 1 := hs
  have hbook : (book t.shared t.actors).begun ≤ t.shared.acct.count .submitted :=
    (Consistent.of_free_run hrun).recorded.begun_le_submitted
  exact ⟨t, hrun, hp, hs, hs ▸ hbook⟩

end ThreadPools.Fixed
