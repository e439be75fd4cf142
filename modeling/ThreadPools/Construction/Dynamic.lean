import ThreadPools.Construction.Builder
import ThreadPools.Dynamic.Policy
import ThreadPools.Dynamic.Rest

/-! # Construction of the dynamic pool

`build` starts the core workers through calls of `prestart_core_thread`, one after another.
If one of them fails, `build` stops the pool and waits for its termination before it returns
the error. Nobody else knows the pool: the only actors besides the workers are the calls of
the builder.
-/
namespace ThreadPools.Dynamic
open Interleaving

/-- `build` after the validation, with `prestart_all_core_threads`. A call that is under way
is an actor of the pool. -/
inductive BuildPc where
  | prestart | prestarting (actor : ℕ)
  | stop (error : SubmissionError) | stopping (error : SubmissionError) (actor : ℕ)
  | wait (error : SubmissionError) | waiting (error : SubmissionError) (actor : ℕ)
  | failed (error : SubmissionError) | built
  deriving DecidableEq

structure Site where
  pool : State Shared Pc
  builder : BuildPc

/-- The wait of `build` has no timeout. -/
def Pc.timesOut : Pc → Outcome → Bool
  | .observe (.parked _), .err => true
  | _, _ => false

abbrev Untimed : Machine.Guard Shared Pc Outcome := fun _ _ p c => p.timesOut c = false

namespace Site

def start (config : ThreadPoolConfig) (prestart : Bool) : Site :=
  ⟨init config fun _ => false, if prestart then .prestart else .built⟩

def invoke (s : Site) (op : Op) (b : ℕ → BuildPc) : Option Site :=
  (machine.next Untimed s.pool (.call op)).map fun t => ⟨t, b s.pool.actors.length⟩

def build (s : Site) : Option Site :=
  match s.builder with
  | .prestart => s.invoke .prestartCoreThread .prestarting
  | .prestarting i =>
    match s.pool.actors[i]? with
    | some (.prestarted (.ok true)) => some { s with builder := .prestart }
    | some (.prestarted (.ok false)) => some { s with builder := .built }
    | some (.prestarted (.error error)) => some { s with builder := .stop error }
    | _ => none
  | .stop error => s.invoke .stop (.stopping error)
  | .stopping error i =>
    match s.pool.actors[i]? with
    | some (.stop (.returned _)) => some { s with builder := .wait error }
    | _ => none
  | .wait error => s.invoke .waitTermination (.waiting error)
  | .waiting error i =>
    match s.pool.actors[i]? with
    | some (.observe (.returned _)) => some { s with builder := .failed error }
    | _ => none
  | .failed _ | .built => none

inductive Turn where
  | actor (i : ℕ) (c : Outcome)
  | builder

def next (s : Site) : Turn → Option Site
  | .actor i c => (machine.next Untimed s.pool (.act i c)).map fun t => { s with pool := t }
  | .builder => s.build

abbrev Reach (config : ThreadPoolConfig) (prestart : Bool) : Site → Prop :=
  Relation.ReflTransGen (fun s t => ∃ m, s.next m = some t) (start config prestart)

def AtRest (s : Site) : Prop := machine.AtRest Asleep s.pool ∧ s.build = none

end Site

namespace BuildPc

def current : BuildPc → Option ℕ
  | .prestarting i | .stopping _ i | .waiting _ i => some i
  | _ => none

def unstopped : BuildPc → Bool
  | .prestart | .prestarting _ | .stop _ | .built => true
  | _ => false

def stopped : BuildPc → Bool
  | .wait _ | .waiting _ _ | .failed _ => true
  | _ => false

def error : BuildPc → Option SubmissionError
  | .stop error | .stopping error _ | .wait error | .waiting error _ | .failed error => some error
  | _ => none

end BuildPc

variable {sh sh' : Shared} {p p' q : Pc} {c : Outcome}

def Pc.awaits : Pc → Bool
  | .observe (.lockState .waitTermination) | .observe .park | .observe (.parked _)
  | .observe (.unlock .waitTermination true) | .observe (.returned true)
  | .term (.observer .waitTermination) | .idle _ (.term (.observer .waitTermination)) => true
  | _ => false

theorem awaits_step (h : step sh c p = some (sh', p')) (ht : p.timesOut c = false) (hp : p.awaits = true) :
    p'.awaits = true ∧ (∀ b, p' = .observe (.returned b) → p = .observe (.unlock .waitTermination true)) := by
  unfold Pc.awaits at hp
  split at hp
  · obtain ⟨s, -, h⟩ := Option.map_eq_some_iff.mp h
    cases h
    exact ⟨rfl, by rintro b ⟨⟩⟩
  · cases h
    exact ⟨rfl, by rintro b ⟨⟩⟩
  · cases c with
    | ok =>
      obtain ⟨s, -, h⟩ := Option.map_eq_some_iff.mp h
      cases h
      exact ⟨rfl, by rintro b ⟨⟩⟩
    | err => cases ht
  · cases h
    exact ⟨rfl, fun b _ => rfl⟩
  · cases h
  · simp only [step] at h
    split at h <;> cases h <;> exact ⟨rfl, by rintro b ⟨⟩⟩
  · obtain ⟨-, h⟩ := Prod.mk.inj (Option.some.inj h)
    unfold idleStep at h
    repeat' split at h
    all_goals
      cases h
      exact ⟨rfl, by rintro b ⟨⟩⟩
  · cases hp

structure Staffing (sh : Shared) (p : Pc) (sh' : Shared) : Prop where
  core : sh'.state.corePoolSize = sh.state.corePoolSize
  allow : sh'.state.allowCoreThreadTimeout = sh.state.allowCoreThreadTimeout
  live : sh'.state.liveWorkers ≤ sh.state.liveWorkers ∨
    p = .prestart ∧ sh.state.liveWorkers < sh.state.corePoolSize ∧ sh'.state.liveWorkers = sh.state.liveWorkers + 1

theorem Staffing.of_same (hs : sh'.state = sh.state) : Staffing sh p sh' :=
  ⟨by rw [hs], by rw [hs], Or.inl (by rw [hs])⟩

theorem workerStep_staffing {p : WorkerPc} (h : workerStep sh c p = some (sh', p')) :
    Staffing sh (.worker p) sh' := by
  cases p with
  | takePop =>
    simp only [workerStep] at h
    split at h
    · cases h
      exact .of_same rfl
    · split at h
      · rename_i hs
        obtain rfl := takeQueued_eq_some hs
        cases h
        exact .of_same rfl
      · cases h
        exact .of_same rfl
  | unregister =>
    simp only [workerStep] at h
    split at h <;> cases h
    · exact ⟨rfl, rfl, Or.inl (Nat.sub_le _ _)⟩
    · exact .of_same rfl
  | exitLock =>
    obtain ⟨s, hs, h⟩ := Option.map_eq_some_iff.mp h
    obtain ⟨-, rfl⟩ := sh.lock_eq_some hs
    split at h <;> cases h
    · exact ⟨rfl, rfl, Or.inl (Nat.le_refl _)⟩
    · exact .of_same rfl
  | _ =>
    simp only [workerStep, Shared.lock, Shared.lockQueue, Shared.lower] at h
    repeat' split at h
    all_goals first | (simp only [Option.map_some] at h; (repeat' split at h) <;> cases h) | cases h
    all_goals first
      | exact .of_same rfl
      | exact ⟨rfl, rfl, Or.inl (Nat.le_refl _)⟩

theorem stopStep_staffing {p : StopPc} (h : stopStep sh p = some (sh', p')) : Staffing sh (.stop p) sh' := by
  cases p with
  | lockState =>
    obtain ⟨s, hs, h⟩ := Option.map_eq_some_iff.mp h
    obtain ⟨-, rfl⟩ := sh.lock_eq_some hs
    cases h
    dsimp only
    split
    all_goals exact ⟨rfl, rfl, Or.inl (Nat.le_refl _)⟩
  | drain running jobs =>
    simp only [stopStep] at h
    split at h
    · cases h
      exact .of_same rfl
    · split at h
      · rename_i hs
        obtain rfl := takeQueued_eq_some hs
        cases h
        exact .of_same rfl
      · cases h
        exact .of_same rfl
  | _ =>
    simp only [stopStep, Shared.lock, Shared.lockQueue, Shared.withLock, Shared.lower] at h
    repeat' split at h
    all_goals first | (simp only [Option.map_some] at h; cases h) | cases h
    all_goals exact .of_same rfl

theorem step_staffing (h : step sh c p = some (sh', p')) (hp : p.call = some .worker ∨ p.call = some .prestart ∨
    p.call = some .stop ∨ p.awaits = true) : Staffing sh p sh' := by
  cases p with
  | worker p => exact workerStep_staffing h
  | stop p => exact stopStep_staffing h
  | prestart =>
    obtain ⟨s, hs, h⟩ := Option.map_eq_some_iff.mp h
    obtain ⟨-, rfl⟩ := sh.lock_eq_some hs
    repeat' split at h
    all_goals cases h
    · exact .of_same rfl
    · exact .of_same rfl
    · exact ⟨rfl, rfl, Or.inr ⟨rfl, Nat.lt_of_not_le ‹_›, rfl⟩⟩
  | spawn p k =>
    cases p <;> simp only [step, spawnStep] at h
    all_goals repeat' split at h
    all_goals cases h
    all_goals first
      | exact .of_same rfl
      | exact ⟨rfl, rfl, Or.inl (Nat.sub_le _ _)⟩
  | cancel p k =>
    cases p with
    | done =>
      cases k <;> cases h
      all_goals exact .of_same rfl
    | _ =>
      simp only [step, cancelStep, Shared.lower] at h
      repeat' split at h
      all_goals cases h
      all_goals exact .of_same rfl
  | observe p =>
    cases p with
    | unlock o terminated =>
      cases o <;> cases h
      all_goals exact .of_same rfl
    | _ =>
      simp only [step, observeStep, Shared.lock] at h
      repeat' split at h
      all_goals cases h
      all_goals exact .of_same rfl
  | notifyLock k =>
    obtain ⟨s, hs, h⟩ := Option.map_eq_some_iff.mp h
    obtain ⟨-, rfl⟩ := sh.lock_eq_some hs
    cases h
    exact .of_same rfl
  | submit | shutdown | ticket | join | setter =>
    rcases hp with hp | hp | hp | hp <;> cases hp
  | prestarted | panicked => cases h
  | _ =>
    cases h
    exact .of_same rfl

structure Prestarted (sh : Shared) (p : Pc) : Prop where
  call : p.call = some .prestart
  error : ∀ error, p = .prestarted (.error error) → error = .workerSpawnFailed
  enough : p = .prestarted (.ok false) → sh.state.allowCoreThreadTimeout = false →
    sh.state.corePoolSize ≤ sh.state.liveWorkers

def Pc.prestartResult : Pc → Option (Except SubmissionError Bool)
  | .prestarted result => some result
  | _ => none

theorem foreign_prestartResult : Foreign Pc.prestartResult :=
  ⟨fun _ _ => rfl, fun _ _ => rfl, fun _ => rfl, fun _ => rfl, rfl, fun _ _ => rfl, fun _ => rfl, fun _ _ => rfl,
    fun _ => rfl⟩

theorem prestarted_step (hk : Prestarted sh p) (hrun : sh.state.lifecycle = .running)
    (h : step sh c p = some (sh', p')) (hn : ∀ e, p' ≠ .panicked e) : Prestarted sh' p' := by
  have hcall := hk.call
  have mk : (∀ result, p' = .prestarted result → result = .ok true ∨ result = .error .workerSpawnFailed ∨
      result = .ok false ∧ sh'.state.corePoolSize ≤ sh'.state.liveWorkers) → Prestarted sh' p' := by
    intro hr
    refine ⟨((step_work h).caller hn).trans hcall, fun error he => ?_, fun he _ => ?_⟩
    · rcases hr _ he with h | h | ⟨h, -⟩ <;> cases h
      rfl
    · rcases hr _ he with h | h | ⟨-, h⟩
      · cases h
      · cases h
      · exact h
  refine mk fun result hp' => ?_
  cases hs : p.inShared with
  | true =>
    have hnone := foreign_prestartResult.step hs h
    rw [hp'] at hnone
    cases hnone
  | false =>
    cases p with
    | prestart =>
      obtain ⟨s, hs, h⟩ := Option.map_eq_some_iff.mp h
      obtain ⟨-, rfl⟩ := sh.lock_eq_some hs
      split at h
      · exact absurd hrun ‹_›
      · split at h <;> cases h <;> cases hp'
        exact Or.inr (Or.inr ⟨rfl, ‹_›⟩)
    | spawn p k =>
      cases k with
      | submit j => cases hcall
      | prestart =>
        cases p <;> simp only [step, spawnStep] at h
        all_goals repeat' split at h
        all_goals cases h
        all_goals cases hp'
        exact Or.inr (Or.inl rfl)
    | prestartUnlock =>
      cases h
      cases hp'
      exact Or.inl rfl
    | prestarted | panicked => cases h
    | cancel p k => cases k <;> cases hcall
    | notifyLock | notifyAll | term | publish | idle => cases hs
    | _ => cases hcall

def BuildPc.Current (prestart : Bool) (t : State Shared Pc) : BuildPc → Prop
  | .prestarting i => ∃ p, t.actors[i]? = some p ∧ Prestarted t.shared p
  | .stopping _ i => ∃ p, t.actors[i]? = some p ∧ p.call = some .stop
  | .waiting _ i => ∃ p, t.actors[i]? = some p ∧ p.awaits = true ∧
      ∀ b, p = .observe (.returned b) → Terminated t.shared
  | .failed _ => Terminated t.shared
  | .built => prestart = true → t.shared.state.allowCoreThreadTimeout = false →
      t.shared.state.corePoolSize ≤ t.shared.state.liveWorkers
  | _ => True

structure Sited (config : ThreadPoolConfig) (prestart : Bool) (s : Site) : Prop where
  run : machine.Run Untimed (init config fun _ => false) s.pool
  calls : ∀ k p, s.pool.actors[k]? = some p →
    p.call = some .worker ∨ p.finished = true ∨ s.builder.current = some k
  current : s.builder.Current prestart s.pool
  running : s.builder.unstopped = true → s.pool.shared.state.lifecycle = .running
  draining : s.pool.shared.state.lifecycle ≠ .shuttingDown
  stopped : s.builder.stopped = true → s.pool.shared.state.lifecycle ≠ .running
  error : ∀ error ∈ s.builder.error, error = .workerSpawnFailed
  core : s.pool.shared.state.corePoolSize = config.corePoolSize
  allow : s.pool.shared.state.allowCoreThreadTimeout = config.allowCoreThreadTimeout
  live : s.pool.shared.state.liveWorkers ≤ config.corePoolSize

theorem Pc.finished_stuck (h : p.finished = true) : step sh c p = none := by
  unfold Pc.finished at h
  split at h <;> first | rfl | cases h

namespace Sited
variable {config : ThreadPoolConfig} {prestart : Bool} {s t : Site}

theorem start : Sited config prestart (Site.start config prestart) where
  run := .refl
  calls := by simp [Site.start, init]
  current := by cases prestart <;> simp [Site.start, BuildPc.Current]
  running _ := rfl
  draining := by rintro ⟨⟩
  stopped := by cases prestart <;> rintro ⟨⟩
  error := by cases prestart <;> simp [Site.start, BuildPc.error]
  core := rfl
  allow := rfl
  live := Nat.zero_le _

theorem acting (h : Sited config prestart s) {i : ℕ} (hp : s.pool.actors[i]? = some p)
    (hs : step s.pool.shared c p = some (sh', p')) : p.call = some .worker ∨ s.builder.current = some i := by
  rcases h.calls i p hp with hw | hf | hc
  · exact Or.inl hw
  · rw [Pc.finished_stuck hf] at hs
    cases hs
  · exact Or.inr hc

/-- What the builder waits for is its call of `prestart_core_thread` while the pool is
running, and a call of `stop` or a wait for termination afterwards. -/
theorem acting_call (h : Sited config prestart s) {i : ℕ} (hp : s.pool.actors[i]? = some p)
    (hs : step s.pool.shared c p = some (sh', p')) : p.call = some .worker ∨ p.call = some .prestart ∨
      s.builder.unstopped = false ∧ (p.call = some .stop ∨ p.awaits = true) := by
  refine (h.acting hp hs).imp_right fun hc => ?_
  have hk := h.current
  cases hb : s.builder with
  | prestarting j =>
    obtain rfl : j = i := by simpa [hb, BuildPc.current] using hc
    obtain ⟨q, hq, hk⟩ : ∃ q, s.pool.actors[j]? = some q ∧ Prestarted s.pool.shared q := by
      simpa [hb, BuildPc.Current] using hk
    cases hq.symm.trans hp
    exact Or.inl hk.call
  | stopping error j =>
    obtain rfl : j = i := by simpa [hb, BuildPc.current] using hc
    obtain ⟨q, hq, hk⟩ : ∃ q, s.pool.actors[j]? = some q ∧ q.call = some .stop := by
      simpa [hb, BuildPc.Current] using hk
    cases hq.symm.trans hp
    exact Or.inr ⟨rfl, Or.inl hk⟩
  | waiting error j =>
    obtain rfl : j = i := by simpa [hb, BuildPc.current] using hc
    rw [hb] at hk
    obtain ⟨q, hq, hk, -⟩ := hk
    cases hq.symm.trans hp
    exact Or.inr ⟨rfl, Or.inr hk⟩
  | _ => simp [hb, BuildPc.current] at hc

/-- A worker that acts leaves a running pool with its core workers. -/
theorem enough (h : Sited config prestart s) (hrun : s.builder.unstopped = true) {i : ℕ}
    (hp : s.pool.actors[i]? = some p) (hcall : p.call = some .worker)
    (hs : step s.pool.shared c p = some (sh', p')) (ha : s.pool.shared.state.allowCoreThreadTimeout = false)
    (hl : s.pool.shared.state.corePoolSize ≤ s.pool.shared.state.liveWorkers) :
    sh'.state.corePoolSize ≤ sh'.state.liveWorkers := by
  rw [(step_staffing hs (Or.inl hcall)).core]
  rcases (step_relief hs).live with hle | rfl | ⟨k, rfl⟩
  · exact Nat.le_trans hl hle
  · have hspare := spares_of_run h.run.free _ (List.mem_of_getElem? hp) rfl (h.running hrun)
    have hlt := hspare.resolve_right (by simp [ha])
    simp only [step, workerStep] at hs
    split at hs <;> cases hs
    · exact Nat.le_sub_one_of_lt hlt
    · exact hl
  · cases k <;> cases hcall

theorem consistent (h : Sited config prestart s) : Consistent False False s.pool.shared s.pool.actors :=
  .of_free_run h.run.free

theorem sound_step (h : Sited config prestart s) {i : ℕ} (hp : s.pool.actors[i]? = some p)
    (hs : step s.pool.shared c p = some (sh', p')) : ∀ e, p' ≠ .panicked e := by
  obtain ⟨rest, hrest, -⟩ := Machine.coe_set_append p' (spawned p c) hp
  exact (hrest ▸ h.consistent).sound_step hs

theorem terminated_step (h : Sited config prestart s) {i : ℕ} (hp : s.pool.actors[i]? = some p)
    (hs : step s.pool.shared c p = some (sh', p')) (ht : Terminated s.pool.shared) : Terminated sh' := by
  obtain ⟨rest, hrest, -⟩ := Machine.coe_set_append p' (spawned p c) hp
  have inv := hrest ▸ h.consistent
  exact ht.step (step_effect hs) inv.gauged inv.onto inv.growing

theorem staffing (h : Sited config prestart s) {i : ℕ} (hp : s.pool.actors[i]? = some p)
    (hs : step s.pool.shared c p = some (sh', p')) : Staffing s.pool.shared p sh' :=
  step_staffing hs ((h.acting_call hp hs).imp_right fun hc => hc.imp_right And.right)

/-- The knowledge about the builder's call survives a step of that call and of a worker. -/
theorem current_step (h : Sited config prestart s) {i : ℕ} (hp : s.pool.actors[i]? = some p)
    (hs : step s.pool.shared c p = some (sh', p')) (hok : p.timesOut c = false) :
    s.builder.Current prestart ⟨sh', s.pool.actors.set i p' ++ spawned p c⟩ := by
  have hn := h.sound_step hp hs
  have hact := h.acting hp hs
  have hallow := (h.staffing hp hs).allow
  have hterm := h.terminated_step hp hs
  have hat : ∀ {k q}, s.pool.actors[k]? = some q → k ≠ i →
      (s.pool.actors.set i p' ++ spawned p c)[k]? = some q := by
    intro k q hq hk
    rw [List.getElem?_append_left (by simpa using (List.getElem?_eq_some_iff.mp hq).1),
      List.getElem?_set_ne (Ne.symm hk)]
    exact hq
  have hself : (s.pool.actors.set i p' ++ spawned p c)[i]? = some p' := by
    have hi := (List.getElem?_eq_some_iff.mp hp).1
    rw [List.getElem?_append_left (by simpa using hi), List.getElem?_set_self hi]
  have hk := h.current
  cases hb : s.builder with
  | prestarting j =>
    rw [hb] at hk
    obtain ⟨q, hq, hk⟩ := hk
    by_cases hj : j = i
    · subst hj
      cases hq.symm.trans hp
      exact ⟨p', hself, prestarted_step hk (h.running (by rw [hb]; rfl)) hs hn⟩
    · have hw := hact.resolve_right (by simp [hb, BuildPc.current, hj])
      refine ⟨q, hat hq hj, hk.call, hk.error, fun he ha => ?_⟩
      rw [hallow] at ha
      exact h.enough (by rw [hb]; rfl) hp hw hs ha (hk.enough he ha)
  | built =>
    rw [hb] at hk
    intro hpre ha
    rw [hallow] at ha
    exact h.enough (by rw [hb]; rfl) hp (hact.resolve_right (by simp [hb, BuildPc.current])) hs ha (hk hpre ha)
  | stopping error j =>
    rw [hb] at hk
    obtain ⟨q, hq, hk⟩ := hk
    by_cases hj : j = i
    · subst hj
      cases hq.symm.trans hp
      exact ⟨p', hself, ((step_work hs).caller hn).trans hk⟩
    · exact ⟨q, hat hq hj, hk⟩
  | waiting error j =>
    rw [hb] at hk
    obtain ⟨q, hq, hk, ht⟩ := hk
    by_cases hj : j = i
    · subst hj
      cases hq.symm.trans hp
      obtain ⟨hk', hret⟩ := awaits_step hs hok hk
      refine ⟨p', hself, hk', fun b hb => hterm ?_⟩
      obtain rfl := hret b hb
      exact h.consistent.known _ (Multiset.mem_coe.mpr (List.mem_of_getElem? hp))
    · exact ⟨q, hat hq hj, hk, fun b hb => hterm (ht b hb)⟩
  | failed error =>
    rw [hb] at hk
    exact hterm hk
  | _ => trivial

/-- Nobody stores a lifecycle before the builder calls `stop`. -/
theorem running_step (h : Sited config prestart s) {i : ℕ} (hp : s.pool.actors[i]? = some p)
    (hs : step s.pool.shared c p = some (sh', p')) (hb : s.builder.unstopped = true) :
    sh'.state.lifecycle = .running := by
  have hquiet : p.call = some .worker ∨ p.call = some .prestart := (h.acting_call hp hs).imp_right fun hc =>
    hc.resolve_right fun hu => Bool.false_ne_true (hu.1.symm.trans hb)
  rcases (step_relief hs).lifecycle with he | rfl | rfl
  · exact he.trans (h.running hb)
  all_goals rcases hquiet with hc | hc <;> cases hc

/-- Nobody calls `shutdown`. -/
theorem draining_step (h : Sited config prestart s) {i : ℕ} (hp : s.pool.actors[i]? = some p)
    (hs : step s.pool.shared c p = some (sh', p')) : sh'.state.lifecycle ≠ .shuttingDown := by
  rcases (step_relief hs).lifecycle with he | rfl | rfl
  · exact he ▸ h.draining
  · rcases h.acting_call hp hs with hc | hc | ⟨-, hc | hc⟩ <;> cases hc
  · obtain ⟨s, hl, hs⟩ := Option.map_eq_some_iff.mp hs
    obtain ⟨-, rfl⟩ := Shared.lock_eq_some _ hl
    cases hs
    dsimp only
    split
    · rintro ⟨⟩
    · rintro ⟨⟩
    · simp [*]
    · simp [*]

theorem actor (h : Sited config prestart s) {i : ℕ} (hp : s.pool.actors[i]? = some p)
    (hs : step s.pool.shared c p = some (sh', p')) (hok : p.timesOut c = false) :
    Sited config prestart ⟨⟨sh', s.pool.actors.set i p' ++ spawned p c⟩, s.builder⟩ := by
  have staff := h.staffing hp hs
  have hf : machine.Follows Untimed s.pool ⟨sh', s.pool.actors.set i p' ++ spawned p c⟩ :=
    .act (r := (sh', p', spawned p c)) hp (Option.map_eq_some_iff.mpr ⟨_, hs, rfl⟩) hok
  refine ⟨h.run.tail hf, fun k q hq => ?_, h.current_step hp hs hok, h.running_step hp hs, h.draining_step hp hs,
    fun hb => (step_effect hs).not_running (h.stopped hb), h.error, staff.core.trans h.core, staff.allow.trans h.allow,
    ?_⟩
  · rcases Machine.getElem?_set_append hp hq with ⟨rfl, rfl⟩ | ⟨-, hq⟩ | hq
    · have hsame := (step_work hs).caller (h.sound_step hp hs)
      exact (h.acting hp hs).imp hsame.trans Or.inr
    · exact h.calls k q hq
    · rw [Consistent.spawned_fresh hq]
      exact Or.inl rfl
  · have hl := h.live
    have hc := h.core
    rcases staff.live with hle | ⟨-, hlt, he⟩
    · exact Nat.le_trans hle hl
    · dsimp only
      omega

theorem called {t : State Shared Pc} {b b' : BuildPc} (h : Sited config prestart ⟨t, b⟩) (op : Op)
    (hop : invoke t.shared op = some (t.shared, p)) (hc : b.current = none) (hc' : b'.current = some t.actors.length)
    (hk : b'.Current prestart ⟨t.shared, t.actors ++ [p]⟩) (hu : b'.unstopped = true → b.unstopped = true)
    (hs : b'.stopped = true → b.stopped = true) (he : b'.error = b.error) :
    Sited config prestart ⟨⟨t.shared, t.actors ++ [p]⟩, b'⟩ := by
  have hf : machine.Follows Untimed t ⟨t.shared, t.actors ++ [p]⟩ := .call (r := (t.shared, p)) hop
  refine ⟨h.run.tail hf, fun k q hq => ?_, hk, h.running ∘ hu, h.draining, h.stopped ∘ hs, he ▸ h.error, h.core, h.allow,
    h.live⟩
  by_cases hk : k < t.actors.length
  · rw [List.getElem?_append_left hk] at hq
    refine (h.calls k q hq).imp_right fun hf => hf.imp_right fun hk => ?_
    cases hc.symm.trans hk
  · have hle := (List.getElem?_eq_some_iff.mp hq).1
    rw [List.length_append, List.length_singleton] at hle
    obtain rfl : k = t.actors.length := by omega
    exact Or.inr (Or.inr hc')

/-- The call of the builder has returned, and the builder reads the result. -/
theorem resumed {t : State Shared Pc} {b b' : BuildPc} (h : Sited config prestart ⟨t, b⟩) {i : ℕ}
    (hc : b.current = some i) (hp : t.actors[i]? = some p) (hf : p.finished = true) (hk : b'.Current prestart t)
    (hu : b'.unstopped = true → b.unstopped = true) (hs : b'.stopped = true → t.shared.state.lifecycle ≠ .running)
    (he : ∀ error ∈ b'.error, error = .workerSpawnFailed) : Sited config prestart ⟨t, b'⟩ := by
  refine ⟨h.run, fun k q hq => ?_, hk, h.running ∘ hu, h.draining, hs, he, h.core, h.allow, h.live⟩
  rcases h.calls k q hq with hw | hf | hk
  · exact Or.inl hw
  · exact Or.inr (Or.inl hf)
  · cases hc.symm.trans hk
    cases hp.symm.trans hq
    exact Or.inr (Or.inl hf)

theorem builder (h : Sited config prestart s) (hb : s.build = some t) : Sited config prestart t := by
  obtain ⟨pool, b⟩ := s
  have hk := h.current
  cases b with
  | prestart =>
    cases hb
    refine h.called .prestartCoreThread rfl rfl rfl ⟨_, List.getElem?_concat_length, rfl, ?_, ?_⟩ (fun _ => rfl) (by rintro ⟨⟩) rfl
    · rintro e ⟨⟩
    · rintro ⟨⟩
  | prestarting i =>
    obtain ⟨p, hp, hk⟩ := hk
    simp only [Site.build, hp] at hb
    split at hb <;> cases hb
    · cases ‹some p = _›
      exact h.resumed rfl hp rfl trivial (fun _ => rfl) (by rintro ⟨⟩) (by rintro e ⟨⟩)
    · cases ‹some p = _›
      exact h.resumed rfl hp rfl (fun _ => hk.enough rfl) (fun _ => rfl) (by rintro ⟨⟩) (by rintro e ⟨⟩)
    · cases ‹some p = _›
      refine h.resumed rfl hp rfl trivial (fun _ => rfl) (by rintro ⟨⟩) ?_
      rintro e ⟨⟩
      exact hk.error _ rfl
  | stop error =>
    cases hb
    exact h.called .stop rfl rfl rfl ⟨_, List.getElem?_concat_length, rfl⟩ (by rintro ⟨⟩) (by rintro ⟨⟩) rfl
  | stopping error i =>
    obtain ⟨p, hp, hk⟩ := hk
    simp only [Site.build, hp] at hb
    split at hb <;> cases hb
    cases ‹some p = _›
    exact h.resumed rfl hp rfl trivial (by rintro ⟨⟩)
      (fun _ => (informed_of_run h.run.free _ (List.mem_of_getElem? hp)).issued rfl) h.error
  | wait error =>
    cases hb
    refine h.called .waitTermination rfl rfl rfl ⟨_, List.getElem?_concat_length, rfl, ?_⟩ (by rintro ⟨⟩) (fun _ => rfl) rfl
    rintro b ⟨⟩
  | waiting error i =>
    obtain ⟨p, hp, -, hk⟩ := hk
    simp only [Site.build, hp] at hb
    split at hb <;> cases hb
    cases ‹some p = _›
    exact h.resumed rfl hp rfl (hk _ rfl) (by rintro ⟨⟩) (fun _ => h.stopped rfl) h.error
  | failed error => cases hb
  | built => cases hb

end Sited

section
variable {config : ThreadPoolConfig} {prestart : Bool} {s : Site}

theorem sited_of_reach (h : Site.Reach config prestart s) : Sited config prestart s := by
  induction h with
  | refl => exact .start
  | tail _ hn ih =>
    obtain ⟨turn, hn⟩ := hn
    cases turn with
    | actor i c =>
      obtain ⟨v, hv, rfl⟩ := Option.map_eq_some_iff.mp hn
      obtain ⟨p, hp, hv⟩ := Option.bind_eq_some_iff.mp hv
      split at hv
      · obtain ⟨r, hr, rfl⟩ := Option.map_eq_some_iff.mp hv
        obtain ⟨⟨sh', p'⟩, hs, rfl⟩ := Option.map_eq_some_iff.mp hr
        exact ih.actor hp hs ‹_›
      · cases hv
    | builder => exact ih.builder hn

/-- The construction ends: at rest the builder has returned a pool or its error. -/
theorem built_at_rest (h : Site.Reach config prestart s) (hr : s.AtRest) :
    s.builder = .built ∨ ∃ error, s.builder = .failed error := by
  have hs := sited_of_reach h
  have q := Resting.of_run hs.run.free (fun hl => absurd hl hs.draining) hr.1
  obtain ⟨pool, b⟩ := s
  have hstuck := hr.2
  have hk := hs.current
  cases b with
  | built => exact Or.inl rfl
  | failed error => exact Or.inr ⟨error, rfl⟩
  | prestart | stop | wait => cases hstuck
  | prestarting i =>
    obtain ⟨p, hp, hk⟩ := hk
    have hcall := hk.call
    rcases q.left p (List.mem_of_getElem? hp) with hf | ⟨-, e, ⟨timed, rfl⟩ | rfl⟩
    · unfold Pc.finished at hf
      split at hf <;> first | cases hf; done | cases hcall; done | skip
      rename_i result
      rcases result with error | _ | _
      all_goals simp [Site.build, hp] at hstuck
    · cases hcall
    · cases hcall
  | stopping error i =>
    obtain ⟨p, hp, hcall⟩ := hk
    rcases q.left p (List.mem_of_getElem? hp) with hf | ⟨-, e, ⟨timed, rfl⟩ | rfl⟩
    · unfold Pc.finished at hf
      split at hf <;> first | cases hf; done | cases hcall; done | simp [Site.build, hp] at hstuck
    · cases hcall
    · cases hcall
  | waiting error i =>
    obtain ⟨p, hp, hk, -⟩ := hk
    rcases q.left p (List.mem_of_getElem? hp) with hf | ⟨hrun, -⟩
    · unfold Pc.finished at hf
      split at hf <;> first | cases hf; done | cases hk | simp [Site.build, hp] at hstuck
    · exact absurd hrun (hs.stopped rfl)

/-- A builder that passes its checks builds a running pool with its core workers, or the pool
has been stopped and has terminated. The construction returns whatever its workers do
meanwhile, and it fails for no other reason than that a thread could not be spawned. -/
theorem staffed_or_stopped {b : ThreadPoolBuilder} (hv : b.validate = .ok ())
    (h : Site.Reach (b.config hv) b.prestartCoreThreads s) :
    (s.builder = .built → machine.Run Machine.free (init (b.config hv) fun _ => false) s.pool ∧
      s.pool.shared.state.lifecycle = .running ∧
        (b.prestartCoreThreads = true → b.allowCoreThreadTimeout = false →
          s.pool.shared.state.liveWorkers = b.corePoolSize)) ∧
      (∀ error, s.builder = .failed error → error = .workerSpawnFailed ∧ Terminated s.pool.shared ∧
        Settled s.pool.shared s.pool.actors) ∧
      (s.AtRest → s.builder = .built ∨ ∃ error, s.builder = .failed error) := by
  have hs := sited_of_reach h
  have hk := hs.current
  refine ⟨fun hb => ⟨hs.run.free, hs.running (by rw [hb]; rfl), fun hp ha => ?_⟩, fun error hb => ?_, built_at_rest h⟩
  · rw [hb] at hk
    have hcore : s.pool.shared.state.corePoolSize = b.corePoolSize := hs.core
    exact Nat.le_antisymm hs.live (hcore ▸ hk hp (hs.allow.trans ha))
  · rw [hb] at hk
    exact ⟨hs.error error (by rw [hb]; rfl), hk, (Consistent.of_free_run hs.run.free).settled hk⟩

end

def twoWorkers : ThreadPoolBuilder := ⟨2, 2, none, none, 60, false, true⟩

theorem twoWorkers_ok : twoWorkers.validate = .ok () := rfl

/-- The second thread cannot be spawned, the pool is stopped and the first worker exits. -/
def brokenSchedule : List Site.Turn :=
  .builder :: (List.replicate 4 (.actor 0 .ok) ++ [.builder, .builder, .actor 2 .ok, .actor 2 .err] ++
    List.replicate 8 (.actor 2 .ok) ++ List.replicate 2 .builder ++ List.replicate 13 (.actor 3 .ok) ++
    List.replicate 2 .builder ++ List.replicate 24 (.actor 1 .ok) ++ List.replicate 7 (.actor 4 .ok) ++ [.builder])

theorem staffed_or_stopped_broken : ∃ s, Site.Reach (twoWorkers.config twoWorkers_ok) true s ∧
    s.builder = .failed .workerSpawnFailed ∧ Terminated s.pool.shared := by
  have hexec : (brokenSchedule.foldlM Site.next (Site.start (twoWorkers.config twoWorkers_ok) true)).map Site.builder =
      some (.failed .workerSpawnFailed) := by
    decide
  obtain ⟨s, hs, hb⟩ := Option.map_eq_some_iff.mp hexec
  have h : Site.Reach (twoWorkers.config twoWorkers_ok) true s := foldlM_reaches hs
  exact ⟨s, h, hb, ((staffed_or_stopped twoWorkers_ok h).2.1 _ hb).2.1⟩

end ThreadPools.Dynamic
