import ThreadPools.Dynamic.Workers
import ThreadPools.Dynamic.Calls

/-! # Entries, their submitters and their tickets

The submitter of a job fixes what the entry of the job can be, and the entry fixes
how many calls of `cancel_queued` wait for the submitter or have won the job.
-/
namespace ThreadPools.Dynamic
open Interleaving

inductive Stage where
  | untouched | accepting | locked | honoured | refused | given
  deriving DecidableEq

def SubmitResult.stage : SubmitResult → Stage
  | none => .given
  | some (.rejected _) => .untouched
  | some .acceptancePanicked => .refused

def SubmitPc.stage : SubmitPc → Stage
  | .callAccept | .accepting | .rollback | .rollbackNotify | .setRejected | .lockQueue | .publishSubmitted
  | .publishQueued | .decideEntry => .accepting
  | .requestedWithdraw | .requestedCancelling | .requestedUnlock => .locked
  | .unlockQueue | .loadIdle | .raiseToken _ | .broadcast => .given
  | .discard error => SubmitResult.stage (some error)
  | .leave result | .departGate result | .departWaiters result | .returned result => SubmitResult.stage result
  | _ => .untouched

def Pc.directStage : Pc → Stage
  | .submit _ p => p.stage
  | .cancel _ _ => .honoured
  | _ => .untouched

def Pc.stage (p : Pc) : Stage := p.home.directStage

def Stage.Admits (job : Job) : Stage → Prop
  | .untouched => job.entry = if job.ticketed then some .prepared else none
  | .accepting =>
    if job.ticketed then ∃ requested, job.entry = some (.accepting job.submitter requested) else job.entry = none
  | .locked | .honoured => job.entry = some .cancelling
  | .refused => job.entry = if job.ticketed then some .rejected else none
  | .given => job.entry = some .queued ∨ job.entry = some .taken ∨ job.entry = some .cancelled

def Stage.Fits (job : Job) (s : Stage) : Prop := s.Admits job ∧ job.entryLocked = decide (s = .locked)

structure Staged (j : JobId) (sh : Shared) (ps : Multiset Pc) : Prop where
  unoffered : sh.offered j = false → Stage.untouched.Fits (sh.jobs j)
  fits : ∀ p ∈ ps, p.call = some (.submit j) → p.stage.Fits (sh.jobs j)

variable {sh sh' : Shared} {p p' q : Pc} {ps rest : Multiset Pc} {c : Outcome} {j : JobId}

theorem Stage.Fits.of_same {job job' : Job} {s : Stage} (h : s.Fits job) (he : job'.entry = job.entry)
    (ht : job'.ticketed = job.ticketed) (hs : job'.submitter = job.submitter)
    (hl : job'.entryLocked = job.entryLocked) : s.Fits job' := by
  refine ⟨?_, hl.trans h.2⟩
  have ha := h.1
  cases s <;> simp only [Stage.Admits, he, ht, hs] at ha ⊢ <;> exact ha

theorem Shared.setEntry_locked (sh : Shared) (i : JobId) (e : QueuedJobState) (j : JobId) :
    ((sh.setEntry i e).jobs j).entryLocked = (sh.jobs j).entryLocked := sh.setJob_same rfl j

theorem Stage.Fits.of_record (h : Stage.Fits (sh.jobs j) s) (i : JobId) (e : JobEvent) :
    Stage.Fits ((sh.record i e).jobs j) s :=
  h.of_same (sh.setJob_same rfl j) (sh.setJob_same rfl j) (sh.setJob_same rfl j) (sh.setJob_same rfl j)

theorem steady_stage : Steady Pc.directStage :=
  ⟨fun _ _ => rfl, rfl, fun _ => rfl, rfl, rfl⟩

/-- A shared function leaves the jobs and the monitor-protected data alone. -/
theorem shared_same (hp : p.inShared = true) (h : step sh c p = some (sh', p')) :
    sh'.jobs = sh.jobs ∧ stored sh' = stored sh ∧ sh'.state = sh.state := by
  cases p with
  | notifyLock k =>
    obtain ⟨s, hs, h⟩ := Option.map_eq_some_iff.mp h
    obtain ⟨-, rfl⟩ := sh.lock_eq_some hs
    cases h
    exact ⟨rfl, rfl, rfl⟩
  | notifyAll k | term k | publish k | idle r k =>
    cases h
    exact ⟨rfl, rfl, rfl⟩
  | _ => cases hp

theorem submitStep_stage {p : SubmitPc} (hs : p.stage.Fits (sh.jobs j)) (h : submitStep sh j c p = some (sh', p'))
    (hn : ∀ e, p' ≠ .panicked e) : p'.stage.Fits (sh'.jobs j) := by
  cases p with
  | beginAccept =>
    simp only [submitStep] at h
    split at h <;> cases h
    · rename_i ht
      refine ⟨?_, (sh.setEntry_locked j _ j).trans hs.2⟩
      have ht' : ((sh.setEntry j (.accepting (sh.jobs j).submitter false)).jobs j).ticketed = true := by
        simpa [Shared.setEntry] using ht
      simp only [Pc.stage, Pc.home, Pc.directStage, SubmitPc.stage, Stage.Admits, ht', if_true]
      exact ⟨false, by simp [Shared.setEntry]⟩
    · rename_i ht
      refine ⟨?_, hs.2⟩
      simpa [Pc.stage, Pc.home, Pc.directStage, SubmitPc.stage, Stage.Admits, ht] using hs.1
  | setRejected =>
    simp only [submitStep] at h
    split at h <;> cases h
    · rename_i ht
      refine ⟨?_, (sh.setEntry_locked j _ j).trans hs.2⟩
      simp [Pc.stage, Pc.home, NotifyCaller.resume, Pc.directStage, SubmitPc.stage, SubmitResult.stage,
        Stage.Admits, Shared.setEntry, ht]
    · rename_i ht
      refine ⟨?_, hs.2⟩
      simpa [Pc.stage, Pc.home, NotifyCaller.resume, Pc.directStage, SubmitPc.stage, SubmitResult.stage,
        Stage.Admits, ht] using hs.1
  | decideEntry =>
    simp only [submitStep] at h
    split at h <;> cases h
    · exact ⟨by simp [Pc.stage, Pc.home, Pc.directStage, SubmitPc.stage, Stage.Admits], by simp [Pc.stage,
        Pc.home, Pc.directStage, SubmitPc.stage]⟩
    · exact ⟨Or.inl (by simp [Shared.setEntry]), (sh.setEntry_locked j _ j).trans hs.2⟩
  | requestedUnlock =>
    cases h
    refine ⟨?_, by simp [Shared.unlockQueue, Pc.stage, Pc.home, Pc.directStage]⟩
    exact (sh.setJob_same (g := Job.entry) (f := fun job => { job with entryLocked := false }) rfl j).trans hs.1
  | handoff =>
    cases h
    exact hs.of_same (by simp [Shared.setAcct]) (by simp [Shared.setAcct]) (by simp [Shared.setAcct])
      (by simp [Shared.setAcct])
  | callAccept =>
    cases h
    exact hs.of_record j _
  | accepting =>
    cases c <;> cases h
    all_goals exact hs.of_record j _
  | leave result =>
    simp only [submitStep] at h
    split at h
    · cases h
      split <;> exact hs
    · cases h
      exact absurd rfl (hn _)
  | _ =>
    simp only [submitStep, Shared.lock, Shared.lockQueue, Shared.withLock, Shared.lower] at h
    repeat' split at h
    all_goals cases h
    all_goals first | exact hs | exact absurd rfl (hn _)

theorem stage_own (hp : p.call = some (.submit j)) (hs : p.stage.Fits (sh.jobs j))
    (h : step sh c p = some (sh', p')) (hn : ∀ e, p' ≠ .panicked e) : p'.stage.Fits (sh'.jobs j) := by
  by_cases hsh : p.inShared = true
  · rw [(shared_same hsh h).1, Pc.stage, steady_stage.step hsh h]
    exact hs
  cases p with
  | submit i p =>
    cases hp
    exact submitStep_stage hs h hn
  | spawn p k =>
    cases p <;> cases k <;> simp only [step, spawnStep] at h
    all_goals repeat' split at h
    all_goals cases h
    all_goals exact hs
  | cancel p k =>
    cases k with
    | submitter i =>
      cases hp
      cases p with
      | done =>
        cases h
        exact ⟨Or.inr (Or.inr (by simp [Shared.finish, Shared.setEntry])),
          (sh.setEntry_locked j _ j).trans hs.2⟩
      | call | running =>
        cases h
        exact hs.of_record j _
      | subSlot =>
        simp only [step, cancelStep, Shared.lower] at h
        split at h <;> cases h
        · exact (show Stage.Fits ((sh.setAcct _).jobs j) _ from hs).of_record j _
        · exact absurd rfl (hn _)
      | _ =>
        simp only [step, cancelStep, Shared.lower] at h
        repeat' split at h
        all_goals cases h
        all_goals first | exact hs | exact absurd rfl (hn _)
    | _ => cases hp
  | _ => first | cases hp | exact absurd rfl hsh

/-- Nobody else moves the entry, except that a ticket may ask for its cancellation and that
whoever removes it from the queue takes it. -/
theorem Stage.Fits.frame {s : Stage} (hs : s.Fits (sh.jobs j)) (w : Work sh p sh' p')
    (hp : p.call ≠ some (.submit j)) : s.Fits (sh'.jobs j) := by
  obtain ⟨ht, hsub, -⟩ := w.fixed j
  have hl : (sh'.jobs j).entryLocked = (sh.jobs j).entryLocked := by
    rcases w.entryLocked j with h | rfl | rfl
    · exact h
    · exact absurd rfl hp
    · exact absurd rfl hp
  rcases w.entry j with he | he
  · exact hs.of_same he ht hsub hl
  refine ⟨?_, hl.trans hs.2⟩
  have ha := hs.1
  generalize hold : (sh.jobs j).entry = e at he
  generalize hnew : (sh'.jobs j).entry = e' at he
  cases he with
  | begin | reject | honour | publish | settle => exact absurd rfl hp
  | @ask caller owner ho =>
    cases s with
    | accepting =>
      simp only [Stage.Admits, hold, ht, hsub] at ha ⊢
      split at ha
      · obtain ⟨b, hb⟩ := ha
        cases hb
        rw [if_pos ‹_›]
        exact ⟨true, hnew⟩
      · cases ha
    | given => simp [Stage.Admits, hold] at ha
    | _ =>
      simp only [Stage.Admits, hold] at ha
      first | cases ha | (split at ha <;> cases ha)
  | take hq =>
    cases s with
    | given => exact Or.inr (Or.inl hnew)
    | accepting =>
      simp only [Stage.Admits, hold] at ha
      split at ha
      · obtain ⟨b, hb⟩ := ha
        cases hb
      · cases ha
    | _ =>
      simp only [Stage.Admits, hold] at ha
      first | cases ha | (split at ha <;> cases ha)

theorem Staged.step (st : Staged j sh (p ::ₘ rest)) (att : Attended sh (p ::ₘ rest))
    (h : step sh c p = some (sh', p')) : Staged j sh' (p' ::ₘ (↑(spawned p c) + rest)) := by
  have w := step_work h
  have hn := att.consistent.sound_step h
  refine ⟨fun ho => ?_, fun q hq hqj => ?_⟩
  · have hold : sh.offered j = false := by rwa [w.offered] at ho
    refine (st.unoffered hold).frame w fun hpj => ?_
    have hle := le_total (f := Pc.submits j) (Multiset.mem_cons_self p rest)
    rw [att.submitters j, hold, Pc.submits, if_pos hpj] at hle
    exact absurd hle (by decide)
  rcases Multiset.mem_cons.mp hq with rfl | hq
  · have hpj : p.call = some (.submit j) := by rwa [w.caller hn] at hqj
    exact stage_own hpj (st.fits p (Multiset.mem_cons_self p rest) hpj) h hn
  · rcases Multiset.mem_add.mp hq with hq | hq
    · rw [Consistent.spawned_fresh (Multiset.mem_coe.mp hq)] at hqj
      cases hqj
    · exact (st.fits q (Multiset.mem_cons_of_mem hq) hqj).frame w (att.other hq hqj)

theorem Staged.call {op : Op} (st : Staged j sh ps) (att : Attended sh ps) (h : invoke sh op = some (sh', p)) :
    Staged j sh' (p ::ₘ ps) := by
  have same : sh'.jobs j = sh.jobs j → p.call ≠ some (.submit j) → Staged j sh' (p ::ₘ ps) := by
    intro hj hp
    refine ⟨fun ho => ?_, fun q hq hqj => ?_⟩
    · rw [hj]
      exact st.unoffered (by rwa [Shared.offered, hj] at ho)
    · rcases Multiset.mem_cons.mp hq with rfl | hq
      · exact absurd hqj hp
      · rw [hj]
        exact st.fits q hq hqj
  cases op with
  | submit i caller =>
    simp only [invoke] at h
    split at h <;> cases h
    by_cases hi : j = i
    · subst hi
      have hold : sh.offered j = false := Bool.eq_false_iff.mpr ‹_›
      refine ⟨fun ho => absurd ho (by simp [Shared.offered]), fun q hq hqj => ?_⟩
      rcases Multiset.mem_cons.mp hq with rfl | hq
      · obtain ⟨he, hl⟩ := st.unoffered hold
        exact ⟨by simpa [Pc.stage, Pc.home, Pc.directStage, SubmitPc.stage, Stage.Admits] using he,
          (sh.setJob_same (g := Job.entryLocked) rfl j).trans hl⟩
      · have hle := le_total (f := Pc.submits j) hq
        rw [att.submitters j, hold, Pc.submits, if_pos hqj] at hle
        exact absurd hle (by decide)
    · refine same (sh.setJob_jobs_ne i hi _) fun hc => hi ?_
      cases hc
      rfl
  | cancelQueued i caller =>
    simp only [invoke] at h
    split at h <;> cases h
    exact same rfl (by rintro ⟨⟩)
  | _ =>
    cases h
    exact same rfl (by rintro ⟨⟩)

def Pc.directAsks (j : JobId) : Pc → ℕ
  | .ticket i .waiting => if i = j then 1 else 0
  | _ => 0

def Pc.asks (j : JobId) (p : Pc) : ℕ := p.home.directAsks j

def TicketPc.won : TicketPc → Bool
  | .withdraw | .cancelling | .unlockQueue | .returned true => true
  | _ => false

def Pc.directWon (j : JobId) : Pc → ℕ
  | .ticket i p => if i = j then p.won.toNat else 0
  | .cancel _ (.ticket i) => if i = j then 1 else 0
  | _ => 0

/-- A call that has taken job `j` out of the queue, or that has returned `true`. -/
def Pc.won (j : JobId) (p : Pc) : ℕ := p.home.directWon j

/-- How many calls wait for the submitter and how many have won, by the state of the entry. -/
def Table (asks won : ℕ) : Option QueuedJobState → Prop
  | some (.accepting _ true) | some .cancelling => asks = 1 ∧ won = 0
  | some .cancelled => asks + won = 1
  | some .taken => asks = 0 ∧ won ≤ 1
  | some .rejected => asks ≤ 1 ∧ won = 0
  | _ => asks = 0 ∧ won = 0

theorem Table.won_le {a w : ℕ} {e : Option QueuedJobState} (h : Table a w e) : w ≤ 1 := by
  unfold Table at h
  split at h <;> omega

inductive Bid (sh : Shared) (j : JobId) : Pc → Shared → Pc → Prop where
  | hold {p p' : Pc} {sh' : Shared} (he : (sh'.jobs j).entry = (sh.jobs j).entry)
      (ha : p'.asks j = p.asks j) (hw : p'.won j = p.won j) : Bid sh j p sh' p'
  | ask {caller owner : ThreadId} {sh' : Shared} (hold : (sh.jobs j).entry = some (.accepting owner false))
      (hnew : (sh'.jobs j).entry = some (.accepting owner true)) :
      Bid sh j (.ticket j (.check caller)) sh' (.ticket j .waiting)
  | answer (ha : ∀ owner requested, (sh.jobs j).entry ≠ some (.accepting owner requested))
      (hc : (sh.jobs j).entry ≠ some .cancelling) :
      Bid sh j (.ticket j .waiting) sh (.ticket j (.returned ((sh.jobs j).entry = some .cancelled)))
  | win {sh' : Shared} (hold : (sh.jobs j).entry = some .queued) (hnew : (sh'.jobs j).entry = some .taken) :
      Bid sh j (.ticket j .remove) sh' (.ticket j .withdraw)

theorem steady_asks : Steady (Pc.directAsks j) :=
  ⟨fun _ _ => rfl, rfl, fun _ => rfl, rfl, rfl⟩

theorem steady_won : Steady (Pc.directWon j) :=
  ⟨fun _ _ => rfl, rfl, fun _ => rfl, rfl, rfl⟩

theorem Pc.no_bid (hp : p.call ≠ some (.ticket j)) : p.asks j = 0 ∧ p.won j = 0 := by
  unfold Pc.call at hp
  constructor
  · unfold Pc.asks Pc.directAsks
    split
    · rename_i i hh
      rw [hh] at hp
      exact if_neg fun h => hp (by rw [h]; rfl)
    · rfl
  · unfold Pc.won Pc.directWon
    split
    · rename_i i q hh
      rw [hh] at hp
      exact if_neg fun h => hp (by rw [h]; rfl)
    · rename_i q i hh
      rw [hh] at hp
      exact if_neg fun h => hp (by rw [h]; rfl)
    · rfl

theorem Shared.record_entry (sh : Shared) (i : JobId) (e : JobEvent) (j : JobId) :
    ((sh.record i e).jobs j).entry = (sh.jobs j).entry := sh.setJob_same rfl j

theorem ticketStep_bid {p : TicketPc} (h : ticketStep sh j p = some (sh', p')) (hn : ∀ e, p' ≠ .panicked e) :
    Bid sh j (.ticket j p) sh' p' := by
  cases p with
  | check caller =>
    simp only [ticketStep] at h
    split at h
    · cases h
    · split at h
      · rename_i owner requested he
        split at h <;> cases h
        · exact .hold rfl rfl rfl
        · rename_i hne
          rw [not_or, Bool.not_eq_true] at hne
          exact .ask (by rw [he, hne.2]) (by simp [Shared.setEntry])
      · cases h
        exact .hold rfl rfl rfl
      · cases h
        exact .hold rfl rfl rfl
  | waiting =>
    simp only [ticketStep] at h
    split at h
    · cases h
    · split at h
      · cases h
        exact .hold rfl rfl rfl
      · cases h
        exact .hold rfl rfl rfl
      · rename_i ha hc
        cases h
        exact .answer ha hc
  | remove =>
    simp only [ticketStep] at h
    split at h
    · split at h
      · rename_i s hs
        have he : (sh.jobs j).entry = some .queued := (entry_of_takeQueued hs :)
        obtain rfl := takeQueued_eq_some hs
        cases h
        exact .win he (by simp [Shared.setEntry])
      · cases h
        exact .hold rfl rfl rfl
    · cases h
      exact .hold rfl rfl rfl
  | unlockQueue =>
    cases h
    exact .hold rfl rfl (by simp [Pc.won, Pc.home, Pc.directWon, TicketPc.won])
  | _ =>
    simp only [ticketStep, Shared.lockQueue, Shared.lower] at h
    repeat' split at h
    all_goals cases h
    all_goals first | exact .hold rfl rfl rfl | exact absurd rfl (hn _)

theorem bid_own (hp : p.call = some (.ticket j)) (h : step sh c p = some (sh', p')) (hn : ∀ e, p' ≠ .panicked e) :
    Bid sh j p sh' p' := by
  by_cases hsh : p.inShared = true
  · exact .hold (by rw [(shared_same hsh h).1]) (steady_asks.step hsh h) (steady_won.step hsh h)
  cases p with
  | ticket i p =>
    cases hp
    exact ticketStep_bid h hn
  | cancel p k =>
    cases k with
    | ticket i =>
      cases hp
      cases p with
      | done =>
        cases h
        exact .hold rfl rfl (by simp [Pc.won, Pc.home, Pc.directWon, TicketPc.won])
      | call | running =>
        cases h
        exact .hold (sh.record_entry j _ j) rfl rfl
      | subSlot =>
        simp only [step, cancelStep, Shared.lower] at h
        split at h <;> cases h
        · exact .hold (Shared.record_entry (sh.setAcct _) j _ j) rfl rfl
        · exact absurd rfl (hn _)
      | _ =>
        simp only [step, cancelStep, Shared.lower] at h
        repeat' split at h
        all_goals cases h
        all_goals first | exact .hold rfl rfl rfl | exact absurd rfl (hn _)
    | _ => cases hp
  | spawn p k => cases k <;> cases hp
  | _ => first | cases hp | exact absurd rfl hsh

/-- A call changes the submitter of its job and the mark that the job was handed over. -/
theorem invoke_job {α : Type} {g : Job → α} {op : Op}
    (hg : ∀ job caller, g { job with offered := true, submitter := caller } = g job)
    (h : invoke sh op = some (sh', p)) (j : JobId) : g (sh'.jobs j) = g (sh.jobs j) := by
  cases op with
  | submit i caller =>
    simp only [invoke] at h
    split at h <;> cases h
    exact sh.setJob_same (hg _ caller) j
  | cancelQueued i caller =>
    simp only [invoke] at h
    split at h <;> cases h
    rfl
  | _ =>
    cases h
    rfl

structure Ticketed (j : JobId) (sh : Shared) (ps : Multiset Pc) : Prop extends Staged j sh ps where
  table : Table (total (Pc.asks j) ps) (total (Pc.won j) ps) (sh.jobs j).entry

theorem spawned_bids : total (Pc.asks j) (↑(spawned p c) : Multiset Pc) = 0 ∧
    total (Pc.won j) (↑(spawned p c) : Multiset Pc) = 0 := by
  constructor
  all_goals
    refine total_eq_zero_iff.mpr fun q hq => ?_
    rw [Consistent.spawned_fresh (Multiset.mem_coe.mp hq)]
    rfl

/-- The submitter moves the entry and the calls of `cancel_queued` stay where they are. -/
theorem Table.of_entry {a w : ℕ} (tab : Table a w (sh.jobs j).entry) (hp : p.call ≠ some (.ticket j))
    (hs : p.call = some (.submit j) → p.stage.Admits (sh.jobs j)) (wk : Work sh p sh' p') :
    Table a w (sh'.jobs j).entry := by
  rcases wk.entry j with he | he
  · rw [he]
    exact tab
  generalize hold : (sh.jobs j).entry = e at he tab
  generalize (sh'.jobs j).entry = e' at he
  cases he with
  | begin ht =>
    have := hs rfl
    simp only [Pc.stage, Pc.home, Pc.directStage, SubmitPc.stage, Stage.Admits, ht, if_true, hold] at this
    rw [this] at tab
    exact tab
  | reject ht =>
    have := hs rfl
    simp only [Pc.stage, Pc.home, Pc.directStage, SubmitPc.stage, Stage.Admits, ht, if_true, hold] at this
    obtain ⟨b, hb⟩ := this
    rw [hb] at tab
    cases b
    · obtain ⟨rfl, rfl⟩ := tab
      exact ⟨Nat.zero_le 1, rfl⟩
    · obtain ⟨rfl, rfl⟩ := tab
      exact ⟨Nat.le_refl 1, rfl⟩
  | ask => exact absurd rfl hp
  | honour => exact tab
  | publish he =>
    have := hs rfl
    simp only [Pc.stage, Pc.home, Pc.directStage, SubmitPc.stage, Stage.Admits, hold] at this
    split at this
    · obtain ⟨b, hb⟩ := this
      rw [hb] at tab he
      cases b
      · exact tab
      · exact absurd rfl (he _)
    · rw [this] at tab
      exact tab
  | take => exact ⟨tab.1, by rw [tab.2]; exact Nat.zero_le 1⟩
  | settle =>
    have he : (sh.jobs j).entry = some .cancelling := hs rfl
    rw [hold] at he
    rw [he] at tab
    obtain ⟨rfl, rfl⟩ := tab
    rfl

theorem Ticketed.step (tk : Ticketed j sh (p ::ₘ rest)) (att : Attended sh (p ::ₘ rest))
    (h : step sh c p = some (sh', p')) : Ticketed j sh' (p' ::ₘ (↑(spawned p c) + rest)) := by
  have hn := att.consistent.sound_step h
  have wk := step_work h
  have tab := tk.table
  refine ⟨tk.toStaged.step att h, ?_⟩
  obtain ⟨hsa, hsw⟩ := spawned_bids (j := j) (p := p) (c := c)
  rw [total_cons, total_cons, total_add, total_add, hsa, hsw, Nat.zero_add, Nat.zero_add]
  rw [total_cons, total_cons] at tab
  by_cases hp : p.call = some (.ticket j)
  case neg =>
    obtain ⟨ha, hw⟩ := Pc.no_bid hp
    obtain ⟨ha', hw'⟩ := Pc.no_bid (j := j) (p := p') (by rwa [wk.caller hn])
    rw [ha, hw] at tab
    rw [ha', hw']
    exact tab.of_entry hp (fun hs => (tk.fits p (Multiset.mem_cons_self p rest) hs).1) wk
  cases bid_own hp h hn with
  | hold he ha hw =>
    rw [he, ha, hw]
    exact tab
  | ask hold hnew =>
    rw [hold] at tab
    rw [hnew]
    simp only [Table, Pc.asks, Pc.won, Pc.home, Pc.directAsks, Pc.directWon, TicketPc.won, if_true] at tab ⊢
    simp at tab ⊢
    omega
  | answer ha hc =>
    generalize (sh.jobs j).entry = e at ha hc tab
    have hask : (Pc.ticket j .waiting).asks j = 1 := if_pos rfl
    have hwon : (Pc.ticket j .waiting).won j = 0 := if_pos rfl
    have hdone : ∀ b, (Pc.ticket j (.returned b)).asks j = 0 ∧ (Pc.ticket j (.returned b)).won j = b.toNat := by
      intro b
      refine ⟨rfl, (if_pos rfl).trans ?_⟩
      cases b <;> rfl
    rw [hask, hwon] at tab
    rw [(hdone _).1, (hdone _).2]
    cases e with
    | none =>
      simp only [Table] at tab
      omega
    | some e =>
      cases e with
      | accepting owner requested => exact absurd rfl (ha owner requested)
      | cancelling => exact absurd rfl hc
      | cancelled | rejected =>
        simp only [Table] at tab ⊢
        simp
        omega
      | taken | queued | prepared =>
        simp only [Table] at tab
        omega
  | win hold hnew =>
    rw [hold] at tab
    rw [hnew]
    simp only [Table, Pc.asks, Pc.won, Pc.home, Pc.directAsks, Pc.directWon, TicketPc.won, if_true] at tab ⊢
    simp at tab ⊢
    omega

theorem invoke_bids {op : Op} (h : invoke sh op = some (sh', p)) : p.asks j = 0 ∧ p.won j = 0 := by
  cases op with
  | submit i caller =>
    simp only [invoke] at h
    split at h <;> cases h
    exact ⟨rfl, rfl⟩
  | cancelQueued i caller =>
    simp only [invoke] at h
    split at h <;> cases h
    exact ⟨rfl, by simp [Pc.won, Pc.home, Pc.directWon, TicketPc.won]⟩
  | _ =>
    cases h
    exact ⟨rfl, rfl⟩

theorem Ticketed.call {op : Op} (tk : Ticketed j sh ps) (att : Attended sh ps)
    (h : invoke sh op = some (sh', p)) : Ticketed j sh' (p ::ₘ ps) := by
  have hentry : (sh'.jobs j).entry = (sh.jobs j).entry := invoke_job (g := Job.entry) (fun _ _ => rfl) h j
  have hbid : p.asks j = 0 ∧ p.won j = 0 := invoke_bids h
  refine ⟨tk.toStaged.call att h, ?_⟩
  rw [total_cons, total_cons, hbid.1, hbid.2, Nat.zero_add, Nat.zero_add, hentry]
  exact tk.table

section
variable {config : ThreadPoolConfig} {tickets : JobId → Bool} {ok : Machine.Guard Shared Pc Outcome}
variable {s t : State Shared Pc}

theorem Ticketed.of_run (h : machine.Run ok (init config tickets) t) (j : JobId) :
    Ticketed j t.shared t.actors := by
  refine induction_along (J := Ticketed j) (fun u hu => Attended.of_run hu) ?_ ?_ h ?_
  · exact fun sh p rest c sh' p' att tk _ hm => tk.step att hm
  · exact fun sh ps op sh' p att tk hm => tk.call att hm
  · have he : ((init config tickets).shared.jobs j).entry = if tickets j then some .prepared else none := rfl
    refine ⟨⟨fun _ => ⟨rfl, rfl⟩, fun p hp => absurd hp (Multiset.notMem_zero p)⟩, ?_⟩
    rw [he]
    cases tickets j <;> exact ⟨rfl, rfl⟩

end

end ThreadPools.Dynamic
