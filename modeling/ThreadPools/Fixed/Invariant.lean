import ThreadPools.Fixed.Effects
import ThreadPools.Fixed.Simulation

/-! # The invariant of the fixed pool and its runs -/
namespace ThreadPools.Fixed
open Interleaving
open Wakeup (Role Place Mode Board Rules)

def Deserted (sh : Shared) : Prop := sh.state.lifecycle ≠ .running ∧ sh.state.liveWorkers = 0

def Terminated (sh : Shared) : Prop := Deserted sh ∧ sh.acct.Sealed 4

def StopPc.stopped : StopPc → Bool
  | .beforeCancelling | .beforeCancelled _ | .close _ | .storeStop _ | .lockState _ => false
  | _ => true

def Known (sh : Shared) : Pc → Prop
  | .worker p => p.draining = true → sh.state.lifecycle = .shuttingDown
  | .idle r (.term _) => Deserted sh ∧ sh.acct.Sealed r.rank
  | .observe (.unlock _ true) => Terminated sh
  | .observe (.unlock .lifecycle false) => .terminated ∉ sh.observed
  | .stop p => (p.stopped = true → 2 ≤ sh.state.lifecycle.rank) ∧
      ((Pc.stop p).closing = true → sh.acct.admission.closed = true)
  | .cancel _ (.stop _ _ _) => 2 ≤ sh.state.lifecycle.rank
  | p => p.closing = true → sh.acct.admission.closed = true

structure Consistent (exitGuard parkGuard : Prop) (sh : Shared) (ps : Multiset Pc) : Prop where
  sound : ∀ p ∈ ps, ∀ e, p ≠ .panicked e
  recorded : Recorded sh (ps.bind Pc.holdings)
  gauged : Gauged sh ps
  known : ∀ p ∈ ps, Known sh p
  observed : Observed sh.state.lifecycle sh.observed (Terminated sh)
  wake : Wakeup.Inv (rules sh.poolSize exitGuard parkGuard) (board sh) (ps.map Pc.role)

variable {sh sh' : Shared} {p p' q : Pc} {rest ps : Multiset Pc} {c : Outcome} {j : JobId} {B : Book}

theorem Deserted.step (hd : Deserted sh) (eff : Effect sh p sh') : Deserted sh' := by
  obtain ⟨hrun, hlive⟩ := hd
  refine ⟨fun hrun' => hrun ?_, ?_⟩
  · have hl := eff.lifecycle
    rw [hrun'] at hl
    cases h : sh.state.lifecycle <;> first | rfl | simp [h, ExecutorServiceLifecycle.rank] at hl
  · have := eff.live
    omega

theorem sealed_step {n : ℕ} (hs : sh.acct.Sealed n) (eff : Effect sh p sh') (law : Gauged sh (p ::ₘ rest))
    (rec : Recorded sh (p.onto B)) : sh'.acct.Sealed n := by
  obtain ⟨hc, hr⟩ := hs
  refine ⟨(eff.gate hc).1, fun r hn => ?_⟩
  have hz := hr r hn
  -- A counter that is to rise needs a submitter in flight or a slot, and neither is left.
  have key : ∀ d, sh.acct.count d = 0 → p.raises ≠ some d → sh'.acct.count d = 0 := by
    intro d hd hp
    rcases eff.count d with h | h
    · omega
    · exact absurd h hp
  cases r with
  | inflight =>
    have := (eff.gate hc).2
    change sh'.acct.inflightCount = 0
    change sh.acct.inflightCount = 0 at hz
    omega
  | slots =>
    refine key .queueSlot hz fun hp => ?_
    have hin : sh.acct.inflightCount = 0 := hr .inflight (by simp [IdleRead.rank] at hn ⊢; omega)
    have hle := law.le_value .inflight
    unfold Pc.raises at hp
    split at hp <;> cases hp
    simp [Gauge.weight, Gauge.value, Pc.inside, SubmitPc.inside, hin] at hle
  | running =>
    refine key .running hz fun hp => ?_
    have hslot : sh.acct.count .queueSlot = 0 := hr .slots (by simp [IdleRead.rank] at hn ⊢; omega)
    unfold Pc.raises at hp
    split at hp <;> cases hp
    have := rec.weight_pos (d := .queueSlot) Nat.one_pos
    omega
  | cancelling =>
    refine key .cancelling hz fun hp => ?_
    have hslot : sh.acct.count .queueSlot = 0 := hr .slots (by simp [IdleRead.rank] at hn ⊢; omega)
    unfold Pc.raises at hp
    split at hp <;> cases hp
    all_goals
      have := rec.weight_pos (d := .queueSlot) Nat.one_pos
      omega

theorem Terminated.step (ht : Terminated sh) (eff : Effect sh p sh') (law : Gauged sh (p ::ₘ rest))
    (rec : Recorded sh (p.onto B)) : Terminated sh' := ⟨ht.1.step eff, sealed_step ht.2 eff law rec⟩

theorem state_frame (hq : q ∈ rest) (hl : q.locks = true) (eff : Effect sh p sh') (law : Gauged sh (p ::ₘ rest)) :
    p.locks = false ∧ sh'.state = sh.state := by
  have hp : p.locks = false := by
    cases hp : p.locks with
    | false => rfl
    | true => exact absurd hl (by simp [law.exclusive hp q hq])
  have hlocked : sh.locked = true := by
    obtain ⟨ps, rfl⟩ := Multiset.exists_cons_of_mem hq
    exact Gauged.locked (Multiset.cons_swap p q ps ▸ law) hl
  refine ⟨hp, ?_⟩
  rcases eff.monitor with h | h | h
  · exact absurd h (by simp [hp])
  · exact absurd h (by simp [hlocked])
  · exact h

theorem Known.frame (hk : Known sh q) (hq : q ∈ rest) (eff : Effect sh p sh') (law : Gauged sh (p ::ₘ rest))
    (rec : Recorded sh (p.onto B)) : Known sh' q := by
  have hmon : q.locks = true → p.locks = false ∧ sh'.state = sh.state := fun hl => state_frame hq hl eff law
  unfold Known at hk ⊢
  split at hk
  · rename_i w
    intro hd
    have hl : (Pc.worker w).locks = true := by cases w <;> first | rfl | cases hd
    rw [(hmon hl).2]
    exact hk hd
  · exact ⟨hk.1.step eff, sealed_step hk.2 eff law rec⟩
  · exact Terminated.step hk eff law rec
  · rcases eff.observed with h | ⟨b, rfl, -⟩
    · rw [h]
      exact hk
    · cases (hmon rfl).1
  · exact ⟨fun hs => le_trans (hk.1 hs) eff.lifecycle, fun hc => (eff.gate (hk.2 hc)).1⟩
  · exact le_trans hk eff.lifecycle
  · exact fun hc => (eff.gate (hk hc)).1

theorem isTerminatedHead_iff : sh.state.isTerminatedHead = true ↔ Deserted sh := by
  simp [FixedThreadPoolState.isTerminatedHead, Deserted]

theorem Known.of_decided {o : Observer} (ht : Terminated sh) : Known sh (o.decided true) := by
  cases o <;> exact ht

theorem Known.of_refuted {o : Observer} (hobs : Observed sh.state.lifecycle sh.observed (Terminated sh))
    (ht : ¬ Terminated sh) : Known sh (o.decided false) := by
  cases o with
  | lifecycle => exact fun hm => ht (hobs.final hm)
  | _ => exact nofun

theorem idleStep_known {r : IdleRead} {k : IdleCaller} (hk : Known sh (.idle r k))
    (hobs : Observed sh.state.lifecycle sh.observed (Terminated sh)) : Known sh (idleStep sh r k) := by
  cases k with
  | term o =>
    have hk' : Deserted sh ∧ sh.acct.Sealed r.rank := hk
    unfold idleStep
    split
    · rename_i hz
      have hs := hk'.2.more hz
      split
      · rename_i r' hr
        have : Deserted sh ∧ sh.acct.Sealed r'.rank := ⟨hk'.1, by rw [IdleRead.rank_next hr]; exact hs⟩
        exact this
      · rename_i hr
        rw [IdleRead.rank_last hr] at hs
        exact Known.of_decided ⟨hk'.1, hs⟩
    · rename_i hz
      refine Known.of_refuted hobs fun ht => hz (ht.2.2 r ?_)
      cases r <;> decide
  | _ =>
    unfold idleStep
    split
    · cases r <;> exact nofun
    · exact nofun

theorem workerStep_known {p : WorkerPc} (hk : p.draining = true → sh.state.lifecycle = .shuttingDown)
    (h : workerStep sh p = some (sh', p')) : Known sh' p' := by
  have ha := workerStep_arrives h
  cases p' with
  | worker q =>
    intro hd
    cases q with
    | drainQueued => exact ha
    | drainInflight | drainPark =>
      obtain ⟨rfl, rfl, -⟩ := ha
      exact hk rfl
    | drainMark | drainReadInflight =>
      obtain ⟨rfl, rfl⟩ := ha
      exact hk rfl
    | drainReadQueued =>
      obtain ⟨rfl, hs⟩ := ha
      rw [hs]
      exact hk rfl
    | _ => cases hd
  | cancel q k =>
    obtain ⟨-, j, rfl⟩ := ha
    rintro ⟨⟩
  | idle r k =>
    obtain ⟨rfl, rfl⟩ := ha
    rintro ⟨⟩
  | panicked => rintro ⟨⟩
  | _ => cases ha

theorem stopStep_known {p : StopPc} (hk : Known sh (.stop p)) (h : stopStep sh p = some (sh', p')) :
    Known sh' p' := by
  cases p with
  | close info =>
    cases h
    exact ⟨(by rintro ⟨⟩), fun _ => rfl⟩
  | storeStop info =>
    cases h
    exact ⟨(by rintro ⟨⟩), fun _ => hk.2 rfl⟩
  | lockState info =>
    obtain ⟨s, hs, h⟩ := Option.map_eq_some_iff.mp h
    obtain ⟨-, rfl⟩ := sh.lock_eq_some hs
    cases hl : sh.state.lifecycle <;> simp only [hl] at h <;> cases h
    · exact ⟨fun _ => Nat.le_refl 2, (by rintro ⟨⟩)⟩
    · exact ⟨fun _ => Nat.le_refl 2, (by rintro ⟨⟩)⟩
    · exact ⟨fun _ => by simp [hl, ExecutorServiceLifecycle.rank], (by rintro ⟨⟩)⟩
    · exact ⟨fun _ => by simp [hl, ExecutorServiceLifecycle.rank], (by rintro ⟨⟩)⟩
  | begin info begun jobs =>
    cases jobs with
    | nil =>
      cases h
      exact ⟨fun _ => hk.1 rfl, (by rintro ⟨⟩)⟩
    | cons i rest =>
      simp only [stopStep, Shared.lower] at h
      split at h <;> cases h
      · exact ⟨fun _ => hk.1 rfl, (by rintro ⟨⟩)⟩
      · rintro ⟨⟩
  | next jobs report =>
    cases jobs <;> cases h
    · exact ⟨fun _ => hk.1 rfl, (by rintro ⟨⟩)⟩
    · exact hk.1 rfl
  | _ =>
    simp only [stopStep, Shared.lock, Shared.withLock] at h
    repeat' split at h
    all_goals cases h
    all_goals first | exact ⟨fun _ => hk.1 rfl, (by rintro ⟨⟩)⟩ | exact ⟨(by rintro ⟨⟩), (by rintro ⟨⟩)⟩ | rintro ⟨⟩

theorem cancelStep_known {p : CancelPc} {k : CancelCaller} (hk : Known sh (.cancel p k))
    (h : cancelStep sh k p = some (sh', p')) : Known sh' p' := by
  cases k with
  | worker j =>
    cases p
    all_goals simp only [cancelStep, Shared.withLock, Shared.lower] at h
    all_goals repeat' split at h
    all_goals cases h
    all_goals rintro ⟨⟩
  | stop j rest report =>
    have hrank : 2 ≤ sh.state.lifecycle.rank := hk
    cases p
    all_goals simp only [cancelStep, Shared.withLock, Shared.lower] at h
    all_goals repeat' split at h
    all_goals cases h
    all_goals first | exact hrank | exact ⟨fun _ => hrank, (by rintro ⟨⟩)⟩ | rintro ⟨⟩

theorem step_known (hk : Known sh p) (hobs : Observed sh.state.lifecycle sh.observed (Terminated sh))
    (hgate : sh.state.lifecycle ≠ .running → sh.acct.admission.closed = true)
    (h : step sh c p = some (sh', p')) : Known sh' p' := by
  cases p with
  | submit j p =>
    cases p
    all_goals simp only [step, submitStep, Shared.withLock, Shared.lower] at h
    all_goals repeat' split at h
    all_goals cases h
    all_goals rintro ⟨⟩
  | worker p => exact workerStep_known hk h
  | shutdown p =>
    cases p with
    | close =>
      cases h
      exact fun _ => rfl
    | lockState =>
      obtain ⟨s, -, h⟩ := Option.map_eq_some_iff.mp h
      cases h
      rintro ⟨⟩
    | returned => cases h
  | stop p => exact stopStep_known hk h
  | cancel p k => exact cancelStep_known hk h
  | join p =>
    cases p
    all_goals simp only [step, joinStep, Shared.lock] at h
    all_goals repeat' split at h
    all_goals cases h
    all_goals rintro ⟨⟩
  | observe p =>
    cases p with
    | unlock o b =>
      cases o <;> cases h
      all_goals rintro ⟨⟩
    | term o =>
      simp only [step, observeStep] at h
      split at h
      · rename_i hd
        cases h
        have hd := isTerminatedHead_iff.mp hd
        exact ⟨hd, hgate hd.1, fun r hr => absurd hr (Nat.not_lt_zero _)⟩
      · rename_i hd
        cases h
        exact Known.of_refuted hobs fun ht => hd (isTerminatedHead_iff.mpr ht.1)
    | _ =>
      simp only [step, observeStep, Shared.lock] at h
      repeat' split at h
      all_goals cases h
      all_goals rintro ⟨⟩
  | idle r k =>
    cases h
    exact idleStep_known hk hobs
  | panicked _ => cases h

theorem step_observed (hobs : Observed sh.state.lifecycle sh.observed (Terminated sh)) (hk : Known sh p)
    (eff : Effect sh p sh') (law : Gauged sh (p ::ₘ rest)) (rec : Recorded sh (p.onto B)) :
    Observed sh'.state.lifecycle sh'.observed (Terminated sh') := by
  have hstable : Terminated sh → Terminated sh' := fun ht => ht.step eff law rec
  rcases eff.observed with he | ⟨b, rfl, -, he⟩
  · rw [he]
    exact hobs.keep eff.stored eff.lifecycle hstable
  · rw [he]
    cases b with
    | true => exact (hobs.append_terminated hk).keep eff.stored eff.lifecycle hstable
    | false => exact (hobs.append_stored hk).keep eff.stored eff.lifecycle hstable

end ThreadPools.Fixed
