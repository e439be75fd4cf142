import ThreadPools.Dynamic.Effects
import ThreadPools.Dynamic.Simulation

/-! # The invariant of the dynamic pool

Besides the book, the gauges and the wake-up protocol, a control point may rely on
what its actor has read: under the monitor as long as it holds it, and for good
where the observation is stable.
-/
namespace ThreadPools.Dynamic
open Interleaving
open Wakeup (Role Place Mode Board Rules)

def Deserted (sh : Shared) : Prop :=
  sh.state.lifecycle ≠ .running ∧ sh.state.liveWorkers = 0 ∧ sh.state.exitingWorkers = 0

/-- What `is_terminated_locked` evaluates, at one instant. -/
def Terminated (sh : Shared) : Prop := Deserted sh ∧ sh.acct.Sealed 4

/-- What the actor at a control point has read and may still rely on. -/
def Known (sh : Shared) : Pc → Prop
  | .worker p => p.draining = true → sh.state.lifecycle = .shuttingDown
  | .idle .running .join => sh.acct.count .queueSlot = 0
  | .idle r (.term _) => Deserted sh ∧ sh.acct.Sealed r.rank
  | .publish _ => Terminated sh
  | .observe (.unlock _ true) => Terminated sh
  | .observe (.unlock .lifecycle false) => .terminated ∉ sh.observed
  | p => p.closing = true → sh.acct.admission.closed = true

structure Consistent (exitGuard parkGuard : Prop) (sh : Shared) (ps : Multiset Pc) : Prop where
  sound : ∀ p ∈ ps, ∀ e, p ≠ .panicked e
  recorded : Recorded sh (ps.bind Pc.holdings)
  gauged : Gauged sh ps
  configured : 0 < sh.state.maximumPoolSize
  known : ∀ p ∈ ps, Known sh p
  observed : Observed sh.state.lifecycle sh.observed (Terminated sh)
  wake : Wakeup.Inv (rules exitGuard parkGuard) (board sh) (ps.map Pc.role)

variable {sh sh' : Shared} {p p' q : Pc} {rest : Multiset Pc} {c : Outcome} {j : JobId} {B : Book}

theorem Recorded.weight_pos {ph : Phase} {d : Counter} (r : Recorded sh ((j, ph) ::ₘ B))
    (hw : 0 < Phase.weight d ph) : 0 < sh.acct.count d := by
  rw [r.entry.counts d]
  exact total_pos_iff.mpr ⟨_, Multiset.mem_cons_self _ _, hw⟩

theorem Deserted.step (hd : Deserted sh) (eff : Effect sh p sh') (law : Gauged sh (p ::ₘ rest))
    (hgrow : p.canGrow = true → sh.state.lifecycle = .running) : Deserted sh' := by
  obtain ⟨hrun, hlive, hexit⟩ := hd
  refine ⟨fun hrun' => ?_, ?_, ?_⟩
  · have := eff.lifecycle
    rw [hrun'] at this
    refine hrun ?_
    cases hl : sh.state.lifecycle <;> first | rfl | simp [hl, ExecutorServiceLifecycle.rank] at this
  · rcases eff.live with h | h | h
    · omega
    · exact absurd h hrun
    · exact absurd (hgrow h) hrun
  · rcases eff.exiting with h | rfl
    · omega
    · have : 0 < sh.state.liveWorkers := law.le_value (g := .liveWorkers) (by rintro ⟨⟩)
      omega

theorem sealed_step {n : ℕ} (hs : sh.acct.Sealed n) (eff : Effect sh p sh') (law : Gauged sh (p ::ₘ rest))
    (rec : Recorded sh (p.onto B)) : sh'.acct.Sealed n := by
  obtain ⟨hc, hr⟩ := hs
  refine ⟨(eff.gate hc).1, fun r hn => ?_⟩
  have hz := hr r hn
  -- A counter that is to rise needs a submitter in flight or a slot, and neither is left.
  have key : ∀ d, sh.acct.count d = 0 → p.raises ≠ some d → sh'.acct.count d = 0 := by
    intro d hd hp
    rcases eff.count d with h | h
    · omega
    · exact absurd h hp
  cases r with
  | inflight =>
    have := (eff.gate hc).2
    change sh'.acct.inflightCount = 0
    change sh.acct.inflightCount = 0 at hz
    omega
  | slots =>
    refine key .queueSlot hz fun hp => ?_
    have hin : sh.acct.inflightCount = 0 := hr .inflight (by simp [IdleRead.rank] at hn ⊢; omega)
    have hle := law.le_value (g := .inflight) (by rintro ⟨⟩)
    unfold Pc.raises at hp
    split at hp <;> cases hp
    all_goals
      simp [Gauge.weight, Gauge.value, Pc.home, Pc.inside, SubmitPc.inside, hin] at hle
  | running =>
    refine key .running hz fun hp => ?_
    have hslot : sh.acct.count .queueSlot = 0 := hr .slots (by simp [IdleRead.rank] at hn ⊢; omega)
    unfold Pc.raises at hp
    split at hp <;> cases hp
    have := rec.weight_pos (d := .queueSlot) Nat.one_pos
    omega
  | cancelling =>
    refine key .cancelling hz fun hp => ?_
    have hslot : sh.acct.count .queueSlot = 0 := hr .slots (by simp [IdleRead.rank] at hn ⊢; omega)
    unfold Pc.raises at hp
    split at hp <;> cases hp
    all_goals
      have := rec.weight_pos (d := .queueSlot) Nat.one_pos
      omega

theorem Terminated.step (ht : Terminated sh) (eff : Effect sh p sh') (law : Gauged sh (p ::ₘ rest))
    (rec : Recorded sh (p.onto B)) (hgrow : p.canGrow = true → sh.state.lifecycle = .running) :
    Terminated sh' := ⟨ht.1.step eff law hgrow, sealed_step ht.2 eff law rec⟩

/-- The holder of the monitor keeps the others from its data. -/
theorem state_frame (hq : q ∈ rest) (hl : q.locks = true) (eff : Effect sh p sh') (law : Gauged sh (p ::ₘ rest)) :
    p.locks = false ∧ sh'.state = sh.state := by
  have hp : p.locks = false := by
    cases hp : p.locks with
    | false => rfl
    | true => exact absurd hl (by simp [law.exclusive hp q hq])
  have hlocked : sh.locked = true := by
    obtain ⟨ps, rfl⟩ := Multiset.exists_cons_of_mem hq
    exact Gauged.locked (Multiset.cons_swap p q ps ▸ law) hl
  refine ⟨hp, ?_⟩
  rcases eff.monitor with h | h | h
  · exact absurd h (by simp [hp])
  · exact absurd h (by simp [hlocked])
  · exact h

/-- What another actor knows survives the step. -/
theorem Known.frame (hk : Known sh q) (hq : q ∈ rest) (eff : Effect sh p sh') (law : Gauged sh (p ::ₘ rest))
    (rec : Recorded sh (p.onto B)) (hgrow : p.canGrow = true → sh.state.lifecycle = .running) :
    Known sh' q := by
  have hmon : q.locks = true → p.locks = false ∧ sh'.state = sh.state := fun hl => state_frame hq hl eff law
  unfold Known at hk ⊢
  split at hk
  · rename_i w
    intro hd
    have hl : (Pc.worker w).locks = true := by cases w <;> first | rfl | cases hd
    rw [(hmon hl).2]
    exact hk hd
  · rcases eff.count .queueSlot with h | h
    · omega
    · have hp := (hmon rfl).1
      unfold Pc.raises at h
      split at h <;> first | (cases h; done) | cases hp
  · exact ⟨hk.1.step eff law hgrow, sealed_step hk.2 eff law rec⟩
  · exact Terminated.step hk eff law rec hgrow
  · exact Terminated.step hk eff law rec hgrow
  · rcases eff.observed with h | ⟨b, rfl, -⟩
    · rw [h]
      exact hk
    · cases (hmon rfl).1
  · exact fun hc => (eff.gate (hk hc)).1

theorem Known.of_idle {k : TermCaller} (ht : Terminated sh) : Known sh k.confirmed := by
  cases k with
  | observer o => cases o <;> exact ht
  | _ => first | exact ht | exact nofun

theorem Known.of_refuted {k : TermCaller} (hobs : Observed sh.state.lifecycle sh.observed (Terminated sh))
    (ht : ¬ Terminated sh) : Known sh k.refuted := by
  cases k with
  | observer o =>
    cases o with
    | lifecycle => exact fun hm => ht (hobs.final hm)
    | _ => exact nofun
  | _ => exact nofun

theorem isTerminatedHead_iff : sh.state.isTerminatedHead = true ↔ Deserted sh := by
  simp [ThreadPoolState.isTerminatedHead, Deserted, and_assoc]

theorem idleStep_known {r : IdleRead} {k : IdleCaller} (hk : Known sh (.idle r k))
    (hobs : Observed sh.state.lifecycle sh.observed (Terminated sh)) :
    Known sh (idleStep sh r k) := by
  cases k with
  | term k =>
    have hk' : Deserted sh ∧ sh.acct.Sealed r.rank := by cases r <;> exact hk
    unfold idleStep
    split
    · rename_i hz
      have hs := hk'.2.more hz
      split
      · rename_i r' hr
        have : Deserted sh ∧ sh.acct.Sealed r'.rank := ⟨hk'.1, by rw [IdleRead.rank_next hr]; exact hs⟩
        cases r' <;> exact this
      · rename_i hr
        rw [IdleRead.rank_last hr] at hs
        exact Known.of_idle ⟨hk'.1, hs⟩
    · rename_i hz
      refine Known.of_refuted hobs fun ht => hz (ht.2.2 r ?_)
      cases r <;> decide
  | join =>
    unfold idleStep
    split
    · rename_i hz
      cases r with
      | slots => exact hz
      | _ => exact nofun
    · exact nofun
  | _ =>
    unfold idleStep
    split
    · cases r <;> exact nofun
    · exact nofun

theorem workerStep_known {p : WorkerPc} (hk : p.draining = true → sh.state.lifecycle = .shuttingDown)
    (h : workerStep sh c p = some (sh', p')) : Known sh' p' := by
  have ha := workerStep_arrives h
  cases p' with
  | worker q =>
    intro hd
    cases q with
    | drainQueued => exact ha
    | drainInflight | drainPark =>
      obtain ⟨rfl, rfl, -⟩ := ha
      exact hk rfl
    | drainMark | drainReadInflight =>
      obtain ⟨rfl, rfl⟩ := ha
      exact hk rfl
    | drainReadQueued =>
      obtain ⟨rfl, hs⟩ := ha
      rw [hs]
      exact hk rfl
    | _ => cases hd
  | idle r k =>
    obtain ⟨rfl, rfl⟩ := ha
    rintro ⟨⟩
  | term | panicked => rintro ⟨⟩
  | _ => cases ha

theorem step_known (hk : Known sh p) (hobs : Observed sh.state.lifecycle sh.observed (Terminated sh))
    (hgate : sh.state.lifecycle ≠ .running → sh.acct.admission.closed = true)
    (h : step sh c p = some (sh', p')) : Known sh' p' := by
  cases p with
  | submit j p =>
    cases p
    all_goals simp only [step, submitStep, Shared.lock, Shared.lockQueue, Shared.withLock, Shared.lower] at h
    all_goals repeat' split at h
    all_goals cases h
    all_goals rintro ⟨⟩
  | spawn p k =>
    cases p <;> cases k <;> simp only [step, spawnStep] at h
    all_goals repeat' split at h
    all_goals cases h
    all_goals rintro ⟨⟩
  | prestart =>
    obtain ⟨s, -, h⟩ := Option.map_eq_some_iff.mp h
    repeat' split at h
    all_goals cases h
    all_goals rintro ⟨⟩
  | worker p => exact workerStep_known hk h
  | shutdown p =>
    cases p with
    | lockState =>
      obtain ⟨s, -, h⟩ := Option.map_eq_some_iff.mp h
      cases h
      rintro ⟨⟩
    | close =>
      cases h
      exact fun _ => rfl
    | notifyCapacity =>
      cases h
      exact fun _ => hk rfl
    | notifyAll =>
      cases h
      rintro ⟨⟩
    | returned => cases h
  | stop p =>
    cases p with
    | close =>
      cases h
      exact fun _ => rfl
    | notifyCapacity =>
      cases h
      exact fun _ => hk rfl
    | storeStop =>
      cases h
      exact fun _ => hk rfl
    | next jobs report =>
      cases jobs <;> cases h
      all_goals rintro ⟨⟩
    | _ =>
      simp only [step, stopStep, Shared.lock, Shared.lockQueue, Shared.withLock, Shared.lower] at h
      repeat' split at h
      all_goals first | (simp only [Option.map_some] at h; (repeat' split at h) <;> cases h) | cases h
      all_goals rintro ⟨⟩
  | ticket j p =>
    cases p
    all_goals simp only [step, ticketStep, Shared.lockQueue, Shared.lower] at h
    all_goals repeat' split at h
    all_goals cases h
    all_goals rintro ⟨⟩
  | cancel p k =>
    cases p <;> cases k <;> simp only [step, cancelStep, Shared.lower] at h
    all_goals repeat' split at h
    all_goals cases h
    all_goals rintro ⟨⟩
  | join p =>
    cases p
    all_goals simp only [step, joinStep, Shared.lock] at h
    all_goals repeat' split at h
    all_goals cases h
    all_goals rintro ⟨⟩
  | observe p =>
    cases p with
    | unlock o b =>
      cases o <;> cases h
      all_goals rintro ⟨⟩
    | lockState o =>
      obtain ⟨s, -, h⟩ := Option.map_eq_some_iff.mp h
      cases h
      rintro ⟨⟩
    | _ =>
      simp only [step, observeStep, Shared.lock] at h
      repeat' split at h
      all_goals cases h
      all_goals rintro ⟨⟩
  | setter p =>
    cases p
    all_goals simp only [step, setterStep, Shared.withLock] at h
    all_goals repeat' split at h
    all_goals cases h
    all_goals rintro ⟨⟩
  | notifyLock k =>
    obtain ⟨s, -, h⟩ := Option.map_eq_some_iff.mp h
    cases h
    rintro ⟨⟩
  | notifyAll k =>
    cases h
    cases k <;> rintro ⟨⟩
  | term k =>
    simp only [step] at h
    split at h
    · rename_i hd
      cases h
      have hd := isTerminatedHead_iff.mp hd
      exact ⟨hd, hgate hd.1, fun r hr => absurd hr (Nat.not_lt_zero _)⟩
    · rename_i hd
      cases h
      exact Known.of_refuted hobs fun ht => hd (isTerminatedHead_iff.mpr ht.1)
  | publish k =>
    cases h
    cases k with
    | observer o => exact hk
    | _ => rintro ⟨⟩
  | idle r k =>
    cases h
    exact idleStep_known hk hobs
  | prestartUnlock =>
    cases h
    rintro ⟨⟩
  | prestarted _ => cases h
  | panicked _ => cases h

/-- Every value that `lifecycle` returns is at least the values returned before. -/
theorem step_observed (hobs : Observed sh.state.lifecycle sh.observed (Terminated sh)) (hk : Known sh p)
    (eff : Effect sh p sh') (law : Gauged sh (p ::ₘ rest)) (rec : Recorded sh (p.onto B))
    (hgrow : p.canGrow = true → sh.state.lifecycle = .running) :
    Observed sh'.state.lifecycle sh'.observed (Terminated sh') := by
  have hstable : Terminated sh → Terminated sh' := fun ht => ht.step eff law rec hgrow
  rcases eff.observed with he | ⟨b, rfl, -, he⟩
  · rw [he]
    exact hobs.keep eff.stored eff.lifecycle hstable
  · rw [he]
    cases b with
    | true => exact (hobs.append_terminated hk).keep eff.stored eff.lifecycle hstable
    | false => exact (hobs.append_stored hk).keep eff.stored eff.lifecycle hstable

end ThreadPools.Dynamic
