import ThreadPools.Construction.Builder
import ThreadPools.Fixed.Rest

/-! # Construction of the fixed pool

`new_with_builder` starts the workers one after another, and those that have been started run
at once. If a thread cannot be spawned, the workers are stopped and joined. A pool under
construction is a part of a complete pool: the missing workers are counted and stand at their
first step, and a failure is a call of `stop` that does not return.
-/
namespace ThreadPools.Fixed
open Interleaving

/-- `new_with_builder` from its second loop on, with `stop_after_failed_build` and
`join_started_workers`. -/
inductive BuildPc where
  | reserve (index : ℕ) | spawn (index : ℕ) | rollback (index : ℕ)
  | close (index : ℕ) | storeStop (index : ℕ) | storeLifecycle (index : ℕ) | join (index k : ℕ)
  | failed (index : ℕ) | built | panicked
  deriving DecidableEq

/-- A pool under construction, which only its workers and its builder know. -/
structure Site where
  pool : State Shared Pc
  builder : BuildPc

def Shared.enlist (n : ℕ) (sh : Shared) : Shared :=
  { sh with state := { sh.state with liveWorkers := sh.state.liveWorkers + n } }

def Shared.dismiss (sh : Shared) : Shared :=
  { sh with state := { sh.state with liveWorkers := sh.state.liveWorkers - 1 } }

namespace Site

def move (s : Site) (sh : Shared) (p : BuildPc) : Site := ⟨⟨sh, s.pool.actors⟩, p⟩

/-- `FixedThreadPoolInner::with_hooks`: no worker is registered yet. -/
def start (config : FixedThreadPoolConfig) : Site :=
  ⟨⟨{ Shared.new config with state := ⟨.running, 0, 0⟩ }, []⟩, .reserve 0⟩

def build (config : FixedThreadPoolConfig) (s : Site) (c : Outcome) : Option Site :=
  match s.builder with
  | .reserve index =>
    if index < config.poolSize then (s.pool.shared.withLock (Shared.enlist 1)).map fun sh => s.move sh (.spawn index)
    else some (s.move s.pool.shared .built)
  | .spawn index =>
    match c with
    | .ok => some ⟨⟨s.pool.shared, s.pool.actors ++ [.worker .start]⟩, .reserve (index + 1)⟩
    | .err => some (s.move s.pool.shared (.rollback index))
  | .rollback index =>
    if s.pool.shared.locked then none
    else if 0 < s.pool.shared.state.liveWorkers then some (s.move s.pool.shared.dismiss (.close index))
    else some (s.move s.pool.shared .panicked)
  | .close index =>
    some (s.move (s.pool.shared.setAcct s.pool.shared.acct.closeAdmission) (.storeStop index))
  | .storeStop index => some (s.move { s.pool.shared with stopNow := true } (.storeLifecycle index))
  | .storeLifecycle index =>
    (s.pool.shared.withLock fun sh => (sh.setLifecycle .stopping).notifyAll).map fun sh => s.move sh (.join index 0)
  | .join index k =>
    if k < index then
      if s.pool.actors[k]? = some (.worker .exited) then some (s.move s.pool.shared (.join index (k + 1))) else none
    else some (s.move s.pool.shared (.failed index))
  | .failed _ | .built | .panicked => none

inductive Turn where
  | worker (i : ℕ) (c : Outcome)
  | builder (c : Outcome)

def next (config : FixedThreadPoolConfig) (s : Site) : Turn → Option Site
  | .worker i c => (machine.next Machine.free s.pool (.act i c)).map fun t => { s with pool := t }
  | .builder c => s.build config c

abbrev Reach (config : FixedThreadPoolConfig) : Site → Prop :=
  Relation.ReflTransGen (fun s t => ∃ m, s.next config m = some t) (start config)

def AtRest (config : FixedThreadPoolConfig) (s : Site) : Prop :=
  machine.AtRest Asleep s.pool ∧ ∀ c, s.build config c = none

end Site

namespace BuildPc

def started (poolSize : ℕ) : BuildPc → ℕ
  | .reserve index | .spawn index | .rollback index | .close index | .storeStop index | .storeLifecycle index
  | .join index _ | .failed index => index
  | .built | .panicked => poolSize

def pending : BuildPc → ℕ
  | .spawn _ | .rollback _ => 1
  | _ => 0

def joined : BuildPc → ℕ
  | .join _ k => k
  | .failed index => index
  | _ => 0

def lifecycle : BuildPc → ExecutorServiceLifecycle
  | .join _ _ | .failed _ => .stopping
  | _ => .running

def closing : BuildPc → Bool
  | .storeStop _ | .storeLifecycle _ | .join _ _ | .failed _ => true
  | _ => false

/-- The call of `stop` that stands for the failure. -/
def Commands : BuildPc → List Pc → Prop
  | .close _, calls => calls = [.stop .beforeCancelling]
  | .storeStop _, calls => ∃ info, calls = [.stop (.storeStop info)]
  | .storeLifecycle _, calls => ∃ info, calls = [.stop (.lockState info)]
  | .join _ _, calls | .failed _, calls => ∃ report, calls = [.stop (.next [] report)]
  | _, calls => calls = []

end BuildPc

variable {sh sh' : Shared} {p p' : Pc} {c : Outcome} {m : ℕ} {calls : List Pc}

section
variable (sh : Shared) (m : ℕ)

@[simp] theorem Shared.enlist_locked : (sh.enlist m).locked = sh.locked := rfl
@[simp] theorem Shared.enlist_acct : (sh.enlist m).acct = sh.acct := rfl
@[simp] theorem Shared.enlist_stopNow : (sh.enlist m).stopNow = sh.stopNow := rfl
@[simp] theorem Shared.enlist_globalQueue : (sh.enlist m).globalQueue = sh.globalQueue := rfl
@[simp] theorem Shared.enlist_poolSize : (sh.enlist m).poolSize = sh.poolSize := rfl
@[simp] theorem Shared.enlist_pendingWorkerWakes : (sh.enlist m).pendingWorkerWakes = sh.pendingWorkerWakes := rfl
@[simp] theorem Shared.enlist_idleWorkerCount : (sh.enlist m).idleWorkerCount = sh.idleWorkerCount := rfl
@[simp] theorem Shared.enlist_lifecycle : (sh.enlist m).state.lifecycle = sh.state.lifecycle := rfl
@[simp] theorem Shared.enlist_idleWorkers : (sh.enlist m).state.idleWorkers = sh.state.idleWorkers := rfl
@[simp] theorem Shared.enlist_liveWorkers : (sh.enlist m).state.liveWorkers = sh.state.liveWorkers + m := rfl

end

/-- A worker does not see how many others are registered. -/
theorem step_enlist (hp : p.call = some .worker) (hlive : p = .worker .exit → 0 < sh.state.liveWorkers) :
    step (sh.enlist m) c p = (step sh c p).map fun r => (r.1.enlist m, r.2) := by
  cases p with
  | worker p =>
    cases p with
    | exit =>
      have hpos := hlive rfl
      have hm : sh.state.liveWorkers + m - 1 = sh.state.liveWorkers - 1 + m := by omega
      simp only [step, workerStep, Shared.enlist_locked, Shared.enlist_liveWorkers, hpos, Nat.lt_add_right m hpos]
      split
      · rfl
      · simp [Shared.enlist, Shared.notifyAll, hm]
    | steal =>
      simp only [step, workerStep, Shared.enlist_globalQueue]
      split <;> rfl
    | dispatch =>
      simp only [step, workerStep, Shared.enlist_lifecycle]
      split <;> rfl
    | _ =>
      simp only [step, workerStep, Shared.lock, Shared.withLock, Shared.lower, Shared.enlist_locked,
        Shared.enlist_acct, Shared.enlist_stopNow, Shared.enlist_poolSize, Shared.enlist_pendingWorkerWakes,
        Shared.enlist_idleWorkerCount, Shared.enlist_idleWorkers]
      first | rfl | (split <;> rfl) | (split <;> rename_i h <;> simp only [h, reduceIte] <;> rfl)
  | cancel p k =>
    cases k with
    | stop j rest report => cases hp
    | worker j =>
      cases p
      all_goals simp only [step, cancelStep, Shared.withLock, Shared.lower, Shared.enlist_locked, Shared.enlist_acct]
      all_goals first | rfl | (split <;> rfl) | (split <;> rename_i h <;> simp only [h, reduceIte] <;> rfl)
  | idle r k => rfl
  | _ => cases hp

/-- In a pool without jobs `stop` only stores the lifecycle and notifies. -/
theorem stop_solo (sh : Shared) (info : StopInfo) (hf : sh.locked = false) (hl : sh.state.lifecycle = .running)
    (hin : sh.acct.inflightCount = 0) (hq : sh.globalQueue = []) : ∃ report,
    machine.solo .ok 8 (sh, .stop (.lockState info)) =
      some ((sh.setLifecycle .stopping).notifyAll, .stop (.next [] report)) := by
  have hdrain : ∀ (sh : Shared) (info : StopInfo), sh.acct.inflightCount = 0 → sh.globalQueue = [] →
      ∃ report, machine.solo .ok 7 (sh, .stop (.readInflight info)) =
        some (sh.notifyAll.unlock, .stop (.next [] report)) := by
    intro sh info hin hq
    refine ⟨StopInfo.report { info with running := sh.acct.runningCount } 0 (sh.acct.count .cancelling)
      (sh.acct.count .cancelled), ?_⟩
    simp [Machine.solo, machine, step, stopStep, hin, hq]
  have hlock : machine.step sh (.stop (.lockState info)) .ok = some
      (Shared.setLifecycle { sh with locked := true } .stopping, .stop (.readInflight { info with isNewStop := true }),
        []) := by
    simp [machine, step, stopStep, Shared.lock, hf, hl]
  obtain ⟨report, hdrain⟩ := hdrain (Shared.setLifecycle { sh with locked := true } .stopping)
    { info with isNewStop := true } hin hq
  refine ⟨report, ?_⟩
  rw [machine.solo_step hlock, hdrain]
  simp [Shared.setLifecycle, Shared.notifyAll, Shared.unlock, hf]

theorem BuildPc.Commands.idle {b : BuildPc} (h : b.Commands calls) : ∀ p ∈ calls,
    p.live = false ∧ p.locks = false ∧ p.inside = false ∧ ∀ w, p.owes w = false := by
  have none : ∀ p ∈ ([] : List Pc), p.live = false ∧ p.locks = false ∧ p.inside = false ∧ ∀ w, p.owes w = false :=
    List.forall_mem_nil _
  have one : ∀ q : StopPc, q.locks = false → q.orders = false → ∀ p ∈ [Pc.stop q],
      p.live = false ∧ p.locks = false ∧ p.inside = false ∧ ∀ w, p.owes w = false := by
    intro q hl ho p hp
    obtain rfl := List.mem_singleton.mp hp
    exact ⟨rfl, hl, rfl, fun w => by cases w <;> first | rfl | exact ho⟩
  cases b with
  | close index => exact h ▸ one _ rfl rfl
  | storeStop index | storeLifecycle index | join index k | failed index =>
    obtain ⟨x, rfl⟩ := h
    exact one _ rfl rfl
  | _ => exact h ▸ none

/-- A site is the part of a state of the complete pool in which `missing` workers have been
neither counted nor started. -/
structure Sited (config : FixedThreadPoolConfig) (s : Site) (u : State Shared Pc) (missing : ℕ)
    (calls : List Pc) : Prop where
  run : machine.Run Machine.free (init config) u
  shared : u.shared = s.pool.shared.enlist missing
  actors : u.actors = s.pool.actors ++ (List.replicate (missing + s.builder.pending) (.worker .start) ++ calls)
  commands : s.builder.Commands calls
  started : s.pool.actors.length = s.builder.started config.poolSize
  size : s.pool.actors.length + s.builder.pending + missing = config.poolSize
  crew : ∀ p ∈ s.pool.actors, p.call = some .worker
  queue : s.pool.shared.globalQueue = []
  lifecycle : s.pool.shared.state.lifecycle = s.builder.lifecycle
  closed : s.builder.closing = true → s.pool.shared.acct.admission.closed = true
  joined : ∀ i < s.builder.joined, s.pool.actors[i]? = some (.worker .exited)
  sound : s.builder ≠ .panicked

namespace Sited
variable {config : FixedThreadPoolConfig} {s t : Site} {u : State Shared Pc} {c : Outcome}

theorem consistent (h : Sited config s u m calls) : Consistent False False u.shared u.actors :=
  .of_free_run h.run

theorem mem (h : Sited config s u m calls) (hp : p ∈ s.pool.actors) : p ∈ (u.actors : Multiset Pc) := by
  rw [h.actors]
  exact Multiset.mem_coe.mpr (List.mem_append_left _ hp)

/-- What the missing workers and the call of `stop` contribute to a total. -/
theorem total_eq (h : Sited config s u m calls) (f : Pc → ℕ) : total f u.actors =
    total f s.pool.actors + ((m + s.builder.pending) * f (.worker .start) + total f calls) := by
  simp [h.actors, total, List.map_replicate, List.sum_replicate]

theorem live_eq (h : Sited config s u m calls) : s.pool.shared.state.liveWorkers =
    total Gauge.liveWorkers.weight s.pool.actors + s.builder.pending := by
  have hg := h.consistent.gauged .liveWorkers
  have hc : total Gauge.liveWorkers.weight (calls : Multiset Pc) = 0 :=
    total_eq_zero_iff.mpr fun p hp => by simp [Gauge.weight, (h.commands.idle p hp).1]
  have hone : Gauge.liveWorkers.weight (.worker .start) = 1 := rfl
  rw [h.total_eq, hc, hone, Gauge.value, h.shared, Shared.enlist_liveWorkers] at hg
  omega

theorem inflight (h : Sited config s u m calls) : s.pool.shared.acct.inflightCount = 0 := by
  have hg := h.consistent.gauged .inflight
  have hs : total Gauge.inflight.weight (s.pool.actors : Multiset Pc) = 0 := by
    refine total_eq_zero_iff.mpr fun p hp => ?_
    have hc := h.crew p (Multiset.mem_coe.mp hp)
    cases p <;> first | rfl | cases hc
  have hc : total Gauge.inflight.weight (calls : Multiset Pc) = 0 :=
    total_eq_zero_iff.mpr fun p hp => by simp [Gauge.weight, (h.commands.idle p hp).2.2.1]
  have hz : Gauge.inflight.weight (.worker .start) = 0 := rfl
  rw [h.total_eq, hs, hc, hz, Gauge.value, h.shared] at hg
  simpa using hg

theorem start : Sited config (Site.start config) (init config) config.poolSize [] where
  run := .refl
  shared := by simp [init, Site.start, Shared.enlist, Shared.new]
  actors := by simp [init, Site.start, BuildPc.pending]
  commands := rfl
  started := rfl
  size := by simp [Site.start, BuildPc.pending]
  crew := by simp [Site.start]
  queue := rfl
  lifecycle := rfl
  closed := by rintro ⟨⟩
  joined := by simp [Site.start, BuildPc.joined]
  sound := by rintro ⟨⟩

/-- The step of a worker that has been started is one of the complete pool. -/
theorem worker (h : Sited config s u m calls) {i : ℕ} {v : State Shared Pc}
    (hn : machine.next Machine.free s.pool (.act i c) = some v) :
    ∃ w, Sited config { s with pool := v } w m calls := by
  obtain ⟨p, hp, hn⟩ := Option.bind_eq_some_iff.mp hn
  obtain ⟨hi, -⟩ := List.getElem?_eq_some_iff.mp hp
  have hmem := List.mem_of_getElem? hp
  have hcall := h.crew p hmem
  rw [if_pos (show Machine.free s.pool.shared s.pool.actors p c from trivial)] at hn
  obtain ⟨r, hr, rfl⟩ := Option.map_eq_some_iff.mp hn
  obtain ⟨⟨sh', p'⟩, hs, rfl⟩ := Option.map_eq_some_iff.mp hr
  have hlive : p = .worker .exit → 0 < s.pool.shared.state.liveWorkers := by
    rintro rfl
    have hle := le_total (f := Gauge.liveWorkers.weight) (Multiset.mem_coe.mpr hmem)
    have hone : Gauge.liveWorkers.weight (.worker .exit) = 1 := rfl
    have := h.live_eq
    omega
  have hu : step u.shared c p = some (sh'.enlist m, p') := by
    rw [h.shared, step_enlist hcall hlive, hs]
    rfl
  obtain ⟨rest, hrest⟩ := Multiset.exists_cons_of_mem (h.mem hmem)
  have hsound := (hrest ▸ h.consistent).sound_step hu
  have hf : machine.Follows Machine.free u ⟨sh'.enlist m, u.actors.set i p' ++ []⟩ := by
    refine .act (c := c) (r := (sh'.enlist m, p', [])) ?_ (Option.map_eq_some_iff.mpr ⟨_, hu, rfl⟩) trivial
    rw [h.actors, List.getElem?_append_left hi, hp]
  rw [h.actors, List.set_append_left _ _ hi, List.append_nil] at hf
  have work := step_work hs
  refine ⟨_, h.run.tail hf, rfl, by rw [List.append_nil], h.commands, ?_, ?_, ?_, ?_, ?_, fun hr => ?_, ?_, h.sound⟩
  · simpa using h.started
  · simpa using h.size
  · intro q hq
    rcases List.mem_or_eq_of_mem_set (by simpa using hq) with hq | rfl
    · exact h.crew q hq
    · exact (work.caller hsound).trans hcall
  · refine List.eq_nil_iff_forall_not_mem.mpr fun j hj => ?_
    rcases work.queue j hj with hj | rfl
    · rw [h.queue] at hj
      cases hj
    · cases hcall
  · rcases (step_relief hs).lifecycle with hl | rfl | ⟨info, rfl⟩
    · exact hl.trans h.lifecycle
    · cases hcall
    · cases hcall
  · exact ((step_effect hs).gate (h.closed hr)).1
  · intro k hk
    have hj := h.joined k hk
    have hne : i ≠ k := by
      rintro rfl
      cases hp.symm.trans hj
      cases hs
    simpa [List.getElem?_set_ne hne] using hj

variable {ps : List Pc} {b : BuildPc} {index k : ℕ}

theorem eq_state (h : Sited config ⟨⟨sh, ps⟩, b⟩ u m calls) :
    u = ⟨sh.enlist m, ps ++ (List.replicate (m + b.pending) (.worker .start) ++ calls)⟩ := by
  obtain ⟨ush, ups⟩ := u
  exact congr (congrArg State.mk h.shared) h.actors

/-- The builder counts a missing worker, or none is missing. -/
theorem reserve (h : Sited config ⟨⟨sh, ps⟩, .reserve index⟩ u m calls)
    (hb : Site.build config ⟨⟨sh, ps⟩, .reserve index⟩ c = some t) : ∃ u m calls, Sited config t u m calls := by
  obtain ⟨hrun, hshared, hactors, hcommands, hstarted, hsize, hcrew, hqueue, hlife, hclosed, hjoined, -⟩ := h
  obtain rfl : calls = [] := hcommands
  simp only [BuildPc.started, BuildPc.pending] at hstarted hsize
  simp only [Site.build] at hb
  split at hb
  · obtain ⟨sh', hs, rfl⟩ := Option.map_eq_some_iff.mp hb
    obtain ⟨-, rfl⟩ := sh.withLock_eq_some hs
    obtain ⟨k, rfl⟩ : ∃ k, m = k + 1 := ⟨m - 1, by omega⟩
    refine ⟨u, k, [], hrun, ?_, hactors, rfl, hstarted, ?_, hcrew, hqueue, hlife, hclosed, hjoined, by rintro ⟨⟩⟩
    · rw [hshared, Nat.add_comm]
      simp [Site.move, Shared.enlist, Nat.add_assoc]
    · simp only [Site.move, BuildPc.pending]
      omega
  · cases hb
    refine ⟨u, m, [], hrun, hshared, hactors, rfl, ?_, hsize, hcrew, hqueue, hlife, hclosed, hjoined, by rintro ⟨⟩⟩
    simp only [Site.move, BuildPc.started]
    omega

/-- The worker that has been counted is started, or its thread cannot be spawned. -/
theorem spawn (h : Sited config ⟨⟨sh, ps⟩, .spawn index⟩ u m calls)
    (hb : Site.build config ⟨⟨sh, ps⟩, .spawn index⟩ c = some t) : ∃ u m calls, Sited config t u m calls := by
  obtain ⟨hrun, hshared, hactors, hcommands, hstarted, hsize, hcrew, hqueue, hlife, hclosed, hjoined, -⟩ := h
  obtain rfl : calls = [] := hcommands
  cases c with
  | ok =>
    cases hb
    refine ⟨u, m, [], hrun, hshared, ?_, rfl, ?_, ?_, ?_, hqueue, hlife, hclosed, ?_, by rintro ⟨⟩⟩
    · rw [hactors]
      simp [BuildPc.pending, List.replicate_succ]
    · simpa [BuildPc.started] using hstarted
    · simpa [BuildPc.pending] using hsize
    · intro p hp
      rcases List.mem_append.mp hp with hp | hp
      · exact hcrew p hp
      · rw [List.mem_singleton.mp hp]
        rfl
    · simp [BuildPc.joined]
  | err =>
    cases hb
    exact ⟨u, m, [], hrun, hshared, hactors, rfl, hstarted, hsize, hcrew, hqueue, hlife, hclosed, hjoined,
      by rintro ⟨⟩⟩

/-- The counted worker is missing again, and in the complete pool somebody calls `stop`. -/
theorem rollback (h : Sited config ⟨⟨sh, ps⟩, .rollback index⟩ u m calls)
    (hb : Site.build config ⟨⟨sh, ps⟩, .rollback index⟩ c = some t) : ∃ u m calls, Sited config t u m calls := by
  have hpos : 0 < sh.state.liveWorkers := by
    have hlive : sh.state.liveWorkers = total Gauge.liveWorkers.weight ps + 1 := h.live_eq
    omega
  obtain ⟨hrun, hshared, hactors, hcommands, hstarted, hsize, hcrew, hqueue, hlife, hclosed, hjoined, -⟩ := h
  obtain rfl : calls = [] := hcommands
  simp only [Site.build, if_pos hpos] at hb
  split at hb
  · cases hb
  · cases hb
    have hcall : machine.call u.shared .stop = some (u.shared, .stop .beforeCancelling) := rfl
    refine ⟨_, m + 1, [.stop .beforeCancelling], hrun.tail (.call hcall), ?_, ?_, rfl, hstarted, ?_, hcrew,
      hqueue, hlife, hclosed, hjoined, by rintro ⟨⟩⟩
    · rw [hshared]
      simp only [Site.move, Shared.enlist, Shared.dismiss]
      congr 2
      omega
    · rw [hactors]
      simp [BuildPc.pending, Site.move]
    · simp only [Site.move, BuildPc.pending] at hsize ⊢
      omega

theorem close (h : Sited config ⟨⟨sh, ps⟩, .close index⟩ u m calls)
    (hb : Site.build config ⟨⟨sh, ps⟩, .close index⟩ c = some t) : ∃ u m calls, Sited config t u m calls := by
  have hu := h.eq_state
  obtain ⟨hrun, -, -, hcommands, hstarted, hsize, hcrew, hqueue, hlife, -, hjoined, -⟩ := h
  obtain rfl : calls = [.stop .beforeCancelling] := hcommands
  cases hb
  subst hu
  have hsolo : machine.solo .ok 3 (sh.enlist m, .stop .beforeCancelling) =
      some ((sh.setAcct sh.acct.closeAdmission).enlist m, .stop (.storeStop
        ⟨false, sh.acct.count .cancelling, sh.acct.count .cancelled, 0⟩)) := rfl
  rw [← List.append_assoc] at hrun
  exact ⟨_, m, _, hrun.trans (machine.solo_run hsolo), rfl, List.append_assoc _ _ _, ⟨_, rfl⟩, hstarted, hsize,
    hcrew, hqueue, hlife, fun _ => rfl, hjoined, by rintro ⟨⟩⟩

theorem storeStop (h : Sited config ⟨⟨sh, ps⟩, .storeStop index⟩ u m calls)
    (hb : Site.build config ⟨⟨sh, ps⟩, .storeStop index⟩ c = some t) : ∃ u m calls, Sited config t u m calls := by
  have hu := h.eq_state
  obtain ⟨hrun, -, -, hcommands, hstarted, hsize, hcrew, hqueue, hlife, hclosed, hjoined, -⟩ := h
  obtain ⟨info, rfl⟩ := hcommands
  cases hb
  subst hu
  have hsolo : machine.solo .ok 1 (sh.enlist m, .stop (.storeStop info)) =
      some (Shared.enlist m { sh with stopNow := true }, .stop (.lockState info)) := rfl
  rw [← List.append_assoc] at hrun
  exact ⟨_, m, _, hrun.trans (machine.solo_run hsolo), rfl, List.append_assoc _ _ _, ⟨_, rfl⟩, hstarted, hsize,
    hcrew, hqueue, hlife, hclosed, hjoined, by rintro ⟨⟩⟩

/-- The rest of `stop` runs through: there are no jobs and no submitters. -/
theorem storeLifecycle (h : Sited config ⟨⟨sh, ps⟩, .storeLifecycle index⟩ u m calls)
    (hb : Site.build config ⟨⟨sh, ps⟩, .storeLifecycle index⟩ c = some t) :
    ∃ u m calls, Sited config t u m calls := by
  have hu := h.eq_state
  have hin := h.inflight
  obtain ⟨hrun, -, -, hcommands, hstarted, hsize, hcrew, hqueue, hlife, hclosed, -, -⟩ := h
  obtain ⟨info, rfl⟩ := hcommands
  obtain ⟨sh', hs, rfl⟩ := Option.map_eq_some_iff.mp hb
  obtain ⟨hfree, rfl⟩ := sh.withLock_eq_some hs
  subst hu
  obtain ⟨report, hsolo⟩ := stop_solo (sh.enlist m) info hfree hlife hin hqueue
  have hsame : ((sh.enlist m).setLifecycle .stopping).notifyAll =
      Shared.enlist m (sh.setLifecycle .stopping).notifyAll := rfl
  rw [hsame] at hsolo
  rw [← List.append_assoc] at hrun
  refine ⟨_, m, _, hrun.trans (machine.solo_run hsolo), rfl, List.append_assoc _ _ _, ⟨_, rfl⟩, hstarted, hsize,
    hcrew, hqueue, rfl, fun _ => hclosed rfl, ?_, by rintro ⟨⟩⟩
  simp [Site.move, BuildPc.joined]

theorem join (h : Sited config ⟨⟨sh, ps⟩, .join index k⟩ u m calls)
    (hb : Site.build config ⟨⟨sh, ps⟩, .join index k⟩ c = some t) : ∃ u m calls, Sited config t u m calls := by
  obtain ⟨hrun, hshared, hactors, hcommands, hstarted, hsize, hcrew, hqueue, hlife, hclosed, hjoined, -⟩ := h
  simp only [Site.build] at hb
  split at hb
  · split at hb <;> cases hb
    refine ⟨u, m, calls, hrun, hshared, hactors, hcommands, hstarted, hsize, hcrew, hqueue, hlife, hclosed,
      fun i hi => ?_, by rintro ⟨⟩⟩
    rcases Nat.lt_succ_iff_lt_or_eq.mp hi with hi | rfl
    · exact hjoined i hi
    · assumption
  · cases hb
    exact ⟨u, m, calls, hrun, hshared, hactors, hcommands, hstarted, hsize, hcrew, hqueue, hlife, hclosed,
      fun i hi => hjoined i (Nat.lt_of_lt_of_le hi (Nat.le_of_not_lt ‹_›)), by rintro ⟨⟩⟩

theorem builder (h : Sited config s u m calls) (hb : s.build config c = some t) :
    ∃ u m calls, Sited config t u m calls := by
  obtain ⟨⟨sh, ps⟩, b⟩ := s
  cases b with
  | reserve index => exact h.reserve hb
  | spawn index => exact h.spawn hb
  | rollback index => exact h.rollback hb
  | close index => exact h.close hb
  | storeStop index => exact h.storeStop hb
  | storeLifecycle index => exact h.storeLifecycle hb
  | join index k => exact h.join hb
  | failed | built | panicked => cases hb

end Sited

section
variable {config : FixedThreadPoolConfig} {s t : Site} {u : State Shared Pc} {c : Outcome}

theorem sited_of_reach (h : Site.Reach config s) : ∃ u m calls, Sited config s u m calls := by
  induction h with
  | refl => exact ⟨_, _, _, .start⟩
  | tail _ hn ih =>
    obtain ⟨u, m, calls, ih⟩ := ih
    obtain ⟨turn, hn⟩ := hn
    cases turn with
    | worker i c =>
      obtain ⟨v, hv, rfl⟩ := Option.map_eq_some_iff.mp hn
      obtain ⟨w, hw⟩ := ih.worker hv
      exact ⟨w, m, calls, hw⟩
    | builder c => exact ih.builder hn

def BuildPc.Within (poolSize : ℕ) : BuildPc → Prop
  | .spawn index | .rollback index | .close index | .storeStop index | .storeLifecycle index | .join index _
  | .failed index => index < poolSize
  | .reserve _ | .built | .panicked => True

theorem within_of_reach (h : Site.Reach config s) : s.builder.Within config.poolSize := by
  induction h with
  | refl => trivial
  | @tail s t _ hn ih =>
    obtain ⟨turn, hn⟩ := hn
    cases turn with
    | worker i c =>
      obtain ⟨v, hv, rfl⟩ := Option.map_eq_some_iff.mp hn
      exact ih
    | builder c =>
      obtain ⟨pool, b⟩ := s
      cases b with
      | reserve index =>
        simp only [Site.next, Site.build] at hn
        split at hn
        · obtain ⟨sh, -, rfl⟩ := Option.map_eq_some_iff.mp hn
          exact ‹index < config.poolSize›
        · cases hn
          trivial
      | spawn index =>
        cases c <;> cases hn
        · trivial
        · exact ih
      | storeLifecycle index =>
        obtain ⟨sh, -, rfl⟩ := Option.map_eq_some_iff.mp hn
        exact ih
      | close | storeStop =>
        cases hn
        exact ih
      | rollback | join =>
        simp only [Site.next, Site.build] at hn
        repeat' split at hn
        all_goals cases hn
        all_goals trivial
      | failed | built | panicked => cases hn

namespace Sited

theorem mem_iff (h : Sited config s u m calls) : p ∈ u.actors →
    p ∈ s.pool.actors ∨ p = .worker .start ∨ p ∈ calls := by
  rw [h.actors]
  intro hp
  rcases List.mem_append.mp hp with hp | hp
  · exact Or.inl hp
  · exact Or.inr ((List.mem_append.mp hp).imp_left List.eq_of_mem_replicate)

/-- Every worker that has been started is joined before the construction fails. -/
theorem all_exited (h : Sited config s u m calls) {index : ℕ} (hb : s.builder = .failed index) :
    s.pool.actors = List.replicate index (.worker .exited) := by
  have hlen : s.pool.actors.length = index := by
    rw [h.started, hb]
    rfl
  refine List.eq_replicate_iff.mpr ⟨hlen, fun p hp => ?_⟩
  obtain ⟨i, hi, rfl⟩ := List.getElem_of_mem hp
  have hj := h.joined i (by rw [hb]; exact hlen ▸ hi)
  rw [List.getElem?_eq_getElem hi] at hj
  exact Option.some.inj hj

theorem idle (h : Sited config s u m calls) {index : ℕ} (hb : s.builder = .failed index) (r : IdleRead) :
    r.value s.pool.shared.acct = 0 := by
  by_cases hr : r = .inflight
  · exact hr ▸ h.inflight
  · refine Law.idle (h.shared ▸ h.consistent.recorded) h.queue (fun e he => ?_) hr
    obtain ⟨p, hp, he⟩ := Multiset.mem_bind.mp he
    rcases h.mem_iff (Multiset.mem_coe.mp hp) with hp | rfl | hp
    · rw [h.all_exited hb] at hp
      rw [List.eq_of_mem_replicate hp] at he
      cases he
    · cases he
    · obtain ⟨report, rfl⟩ : ∃ report, calls = [.stop (.next [] report)] := by
        have hc := h.commands
        rwa [hb] at hc
      obtain rfl := List.mem_singleton.mp hp
      cases he

theorem finished_or_asleep (h : Sited config s u m calls) (hr : machine.AtRest Asleep s.pool) :
    s.pool.shared.locked = false ∧ ∀ p ∈ s.pool.actors, p.finished = true ∨ Asleep s.pool.shared p := by
  refine Fixed.finished_or_asleep (fun p hp => h.consistent.sound p (h.mem hp)) (fun hl => ?_) hr
  have hl : u.shared.locked = true := by simpa [h.shared] using hl
  obtain ⟨p, hp, hlock⟩ := h.consistent.gauged.owner hl
  rcases h.mem_iff hp with hp | rfl | hp
  · exact ⟨p, hp, hlock⟩
  · cases hlock
  · rw [(h.commands.idle p hp).2.1] at hlock
    cases hlock

/-- Once the pool is stopping, a worker at rest has ended: nobody owes it a notification. -/
theorem exited_at_rest (h : Sited config s u m calls) (hr : machine.AtRest Asleep s.pool)
    (hl : s.builder.lifecycle = .stopping) (hp : p ∈ s.pool.actors) : p = .worker .exited := by
  obtain ⟨-, hfa⟩ := h.finished_or_asleep hr
  have hstop : Wait.orders.holds u.shared := by
    refine ⟨?_, ?_⟩
    · simp [h.shared, h.lifecycle, hl]
    · simpa [h.shared] using h.inflight
  have howes : ∀ q ∈ (u.actors : Multiset Pc), ¬ q.owes .orders = true := by
    intro q hq
    refine Bool.eq_false_iff.mp ?_
    rcases h.mem_iff (Multiset.mem_coe.mp hq) with hq | rfl | hq
    · exact (Pc.empty_handed ((hfa q hq).imp_right fun ha => ⟨_, ha⟩)).owes _
    · rfl
    · exact (h.commands.idle q hq).2.2.2 _
  have hquiet := (heard_of_run h.run .orders).quiet _ howes hstop (h.mem hp)
  rw [h.shared] at hquiet
  have hcall := h.crew p hp
  rcases hfa p hp with hf | ha
  · unfold Pc.finished at hf
    split at hf <;> first | rfl | cases hcall | cases hf
  · unfold Asleep Pc.parkedAt at ha
    split at ha <;> first | cases hcall; done | cases ha; done | exact absurd ha hquiet

end Sited

/-- The construction ends: at rest the builder has returned a pool or its error. -/
theorem returned_at_rest (h : Site.Reach config s) (hr : s.AtRest config) :
    s.builder = .built ∨ ∃ index, s.builder = .failed index := by
  obtain ⟨u, m, calls, h⟩ := sited_of_reach h
  obtain ⟨hfree, -⟩ := h.finished_or_asleep hr.1
  have hstuck := hr.2 .ok
  cases hb : s.builder with
  | built => exact Or.inl rfl
  | failed index => exact Or.inr ⟨index, rfl⟩
  | panicked => exact absurd hb h.sound
  | reserve =>
    simp only [Site.build, hb, Shared.withLock, hfree] at hstuck
    split at hstuck <;> cases hstuck
  | rollback =>
    simp only [Site.build, hb, hfree] at hstuck
    split at hstuck
    · cases ‹false = true›
    · split at hstuck <;> cases hstuck
  | storeLifecycle => simp [Site.build, hb, Shared.withLock, hfree] at hstuck
  | spawn | close | storeStop => simp [Site.build, hb] at hstuck
  | join index k =>
    simp only [Site.build, hb] at hstuck
    split at hstuck
    · have hk : k < s.pool.actors.length := by
        rw [h.started, hb]
        assumption
      have hp := h.exited_at_rest hr.1 (by rw [hb]; rfl) (List.getElem_mem hk)
      rw [List.getElem?_eq_getElem hk, hp, if_pos rfl] at hstuck
      cases hstuck
    · cases hstuck

/-- A builder that passes its checks returns a pool that is a state of the complete pool, or it
takes back everything it has done: the workers that it has started have ended, and none is
registered. It returns whatever its workers do meanwhile. -/
theorem built_or_dismantled {b : FixedThreadPoolBuilder} (hv : b.validate = .ok ())
    (h : Site.Reach (b.config hv) s) :
    (s.builder = .built → machine.Run Machine.free (init (b.config hv)) s.pool) ∧
      (∀ index, s.builder = .failed index → index < b.poolSize ∧
        s.pool.actors = List.replicate index (.worker .exited) ∧ Terminated s.pool.shared) ∧
      s.builder ≠ .panicked ∧
      (s.AtRest (b.config hv) → s.builder = .built ∨ ∃ index, s.builder = .failed index) := by
  obtain ⟨u, m, calls, hs⟩ := sited_of_reach h
  refine ⟨fun hb => ?_, fun index hb => ?_, hs.sound, returned_at_rest h⟩
  · have hlen := hs.started
    have hsize := hs.size
    rw [hb] at hlen hsize
    obtain rfl : m = 0 := by
      simp only [BuildPc.started, BuildPc.pending] at hlen hsize
      omega
    obtain rfl : calls = [] := by simpa [BuildPc.Commands, hb] using hs.commands
    have hu : u = s.pool := by
      obtain ⟨ush, ups⟩ := u
      refine congr (congrArg State.mk hs.shared) ?_
      simpa [hb, BuildPc.pending] using hs.actors
    exact hu ▸ hs.run
  · have hw := within_of_reach h
    rw [hb] at hw
    have hout := hs.all_exited hb
    have hlive : s.pool.shared.state.liveWorkers = 0 := by
      have hz : Gauge.liveWorkers.weight (.worker .exited) = 0 := rfl
      rw [hs.live_eq, hb, hout]
      simp [total, hz, BuildPc.pending]
    have hlife := hs.lifecycle
    rw [hb] at hlife
    refine ⟨hw, hout, ⟨by simp [hlife, BuildPc.lifecycle], hlive⟩, hs.closed (by rw [hb]; rfl), fun r _ => hs.idle hb r⟩

end

def twoWorkers : FixedThreadPoolBuilder := ⟨2, none, none⟩

theorem twoWorkers_ok : twoWorkers.validate = .ok () := rfl

/-- The second thread cannot be spawned, and the first worker is joined. -/
def brokenSchedule : List Site.Turn :=
  List.replicate 3 (.builder .ok) ++ .builder .err :: (List.replicate 4 (.builder .ok) ++
    List.replicate 6 (.worker 0 .ok) ++ List.replicate 2 (.builder .ok))

theorem built_or_dismantled_spawn : ∃ s, Site.Reach (twoWorkers.config twoWorkers_ok) s ∧
    s.builder = .failed 1 ∧ Terminated s.pool.shared := by
  have hexec : (brokenSchedule.foldlM (Site.next (twoWorkers.config twoWorkers_ok))
      (Site.start (twoWorkers.config twoWorkers_ok))).map Site.builder = some (.failed 1) := by
    decide
  obtain ⟨s, hs, hb⟩ := Option.map_eq_some_iff.mp hexec
  have h : Site.Reach (twoWorkers.config twoWorkers_ok) s := foldlM_reaches hs
  exact ⟨s, h, hb, ((built_or_dismantled twoWorkers_ok h).2.1 1 hb).2.2⟩

end ThreadPools.Fixed
