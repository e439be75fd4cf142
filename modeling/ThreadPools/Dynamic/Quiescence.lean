import ThreadPools.Dynamic.Workers

/-! # What `join` and the termination predicate of the dynamic pool observe -/
namespace ThreadPools.Dynamic
open Interleaving
open Move (call)

def Joining (p : Pc) : Prop := ∃ r, p = .idle r .join

variable {config : ThreadPoolConfig} {tickets : JobId → Bool} {s t u v : State Shared Pc}
variable {i : ℕ} {r : IdleRead} {us : List (State Shared Pc)}

/-- A load of a joiner: it stays, goes on to the next load or decides. -/
theorem joining_moves (hf : machine.Follows Machine.free u v) (hu : u.actors[i]? = some (.idle r .join)) :
    v.actors[i]? = some (.idle r .join) ∨ v.actors[i]? = some (idleStep u.shared r .join) := by
  refine (hf.moves hu).imp_right ?_
  rintro ⟨c, ⟨sh, p, new⟩, hs, -, hv⟩
  have he : some (u.shared, idleStep u.shared r .join, []) = some (sh, p, new) := hs
  cases he
  exact hv

theorem Consistent.of_joining {exitGuard parkGuard : Prop} {sh : Shared} {ps : Multiset Pc}
    (inv : Consistent exitGuard parkGuard sh ps) (hm : .idle .running .join ∈ ps)
    (hz : sh.acct.runningCount = 0) :
    AllFinished sh.history ∧
      sh.acct.count .submitted = sh.acct.count .completed + sh.acct.count .cancelled := by
  have hslot : sh.acct.count .queueSlot = 0 := inv.known _ hm
  exact ⟨inv.recorded.law.quiet_finished hslot hz, inv.recorded.law.quiet_balance hslot hz⟩

/-- A load of a joiner that neither stays nor gives up has read zero. -/
theorem idleStep_join {sh : Shared} {p : Pc} (h : idleStep sh r .join = p) (hp : p ≠ .join .park) :
    r.value sh.acct = 0 ∧ (r.next = none ∨ ∃ r', r.next = some r' ∧ p = .idle r' .join) := by
  unfold idleStep at h
  split at h
  · rename_i hz
    refine ⟨hz, ?_⟩
    split at h
    · rename_i r' hr
      exact Or.inr ⟨r', hr, h.symm⟩
    · rename_i hr
      exact Or.inl hr
  · exact absurd h.symm hp

/-- A successful evaluation that has not read `running` yet does so, and reads zero. -/
theorem joining_crosses {l : List (State Shared Pc)}
    (he : machine.Stretch Machine.free i Joining (.join .subWaiter) l) (hl : l = u :: us)
    (hrun : machine.Run Machine.free (init config tickets) u)
    (hu : u.actors[i]? = some (.idle r .join)) (hr : r.rank ≤ 2) :
    ∃ v w, [v, w] <:+: l ∧ v.actors[i]? = some (.idle .running .join) ∧
      w.actors[i]? = some (.idle .cancelling .join) ∧ v.shared.acct.runningCount = 0 ∧
      machine.Run Machine.free (init config tickets) v := by
  induction he generalizing u us r with
  | @last v t p hp hD hf hq =>
    cases hl
    rcases joining_moves hf hu with ht | ht
    · rw [hq] at ht
      cases ht
    · rw [hq] at ht
      obtain ⟨-, hn | ⟨r', -, hn⟩⟩ := idleStep_join (Option.some.inj ht).symm nofun
      · have := IdleRead.rank_last hn
        omega
      · cases hn
  | @cons v w ws p hp hD hf h ih =>
    cases hl
    have step : ∀ r' : IdleRead, w.actors[i]? = some (.idle r' .join) → r'.rank ≤ 2 → _ :=
      fun r' hw hr' => ih rfl (hrun.tail hf) hw hr'
    have later : ∀ {a b : State Shared Pc}, [a, b] <:+: w :: ws → [a, b] <:+: v :: w :: ws :=
      fun hi => hi.trans (List.infix_cons (List.infix_refl _))
    rcases joining_moves hf hu with hw | hw
    · obtain ⟨a, b, hi, hab⟩ := step r hw hr
      exact ⟨a, b, later hi, hab⟩
    · obtain ⟨p', hp', r', rfl⟩ := h.head
      rw [hw] at hp'
      obtain ⟨hz, hn | ⟨r'', hn, hr''⟩⟩ := idleStep_join (Option.some.inj hp') nofun
      · have := IdleRead.rank_last hn
        omega
      · cases hr''
        rw [Option.some.inj hp'] at hw
        by_cases hrun' : r = .running
        · subst hrun'
          cases hn
          exact ⟨v, w, (List.prefix_append [v, w] ws).isInfix, hu, hw, hz, hrun⟩
        · have hrank := IdleRead.rank_next hn
          have : r.rank ≠ 2 := by cases r <;> first | exact absurd rfl hrun' | decide
          obtain ⟨a, b, hi, hab⟩ := step r' hw (by omega)
          exact ⟨a, b, later hi, hab⟩

/-- `join` observes a quiescent pool: when it reads `running` as zero, no accepted job
is unfinished. -/
theorem join_observes_quiescence (hrun : machine.Run Machine.free (init config tickets) s)
    (hs : s.actors[i]? = some (.idle .inflight .join))
    (he : machine.Stretch Machine.free i Joining (.join .subWaiter) (s :: us)) :
    ∃ v w, [v, w] <:+: s :: us ∧ v.actors[i]? = some (.idle .running .join) ∧
      w.actors[i]? = some (.idle .cancelling .join) ∧ v.shared.acct.runningCount = 0 ∧
      AllFinished v.shared.history ∧
      v.shared.acct.count .submitted = v.shared.acct.count .completed + v.shared.acct.count .cancelled := by
  obtain ⟨v, w, hi, hv, hw, hz, hrv⟩ := joining_crosses he rfl hrun hs (by decide)
  have hm : Pc.idle .running .join ∈ (v.actors : Multiset Pc) := Multiset.mem_coe.mpr (List.mem_of_getElem? hv)
  exact ⟨v, w, hi, hv, hw, hz, (Consistent.of_free_run hrv).of_joining hm hz⟩

/-- Job 0 has run when a call of `join` begins. -/
theorem join_observes_quiescence_idle : ∃ (s : State Shared Pc) (us : List (State Shared Pc)),
    machine.Run Machine.free (init soleWorker fun _ => false) s ∧ s.shared.acct.count .submitted = 1 ∧
      ∃ v w, [v, w] <:+: s :: us ∧ v.actors[2]? = some (Pc.idle .running .join) ∧
        w.actors[2]? = some (Pc.idle .cancelling .join) ∧ v.shared.acct.runningCount = 0 ∧
        AllFinished v.shared.history ∧
        v.shared.acct.count .submitted = v.shared.acct.count .completed + v.shared.acct.count .cancelled := by
  have hexec : (machine.exec Machine.free (init soleWorker fun _ => false)
      (call (Op.submit 0 0) :: (turns 0 19 Outcome.ok ++ turns 1 21 Outcome.ok) ++
        call Op.join :: turns 2 2 Outcome.ok)).bind
      (fun s => (machine.trace Machine.free s (turns 2 4 Outcome.ok)).map fun l =>
        (s.shared.acct.count .submitted, l.map fun u => u.actors[2]?)) =
      some (1, [Pc.idle .inflight .join, Pc.idle .slots .join, Pc.idle .running .join,
        Pc.idle .cancelling .join].map some ++ [some (Pc.join .subWaiter)]) := by
    decide
  obtain ⟨s, hs, hl⟩ := Option.bind_eq_some_iff.mp hexec
  obtain ⟨l, hl, hpcs⟩ := Option.map_eq_some_iff.mp hl
  obtain ⟨hcount, hpcs⟩ := Prod.mk.inj hpcs
  have hrun := machine.exec_run hs
  have he := machine.trace_stretch (D := Joining) hl hpcs nofun (by simp [Joining])
  obtain ⟨us, rfl⟩ := machine.trace_eq_cons hl
  simp only [List.map_cons, List.cons_append, List.cons.injEq] at hpcs
  exact ⟨s, us, hrun, hcount, join_observes_quiescence hrun hpcs.1 he⟩

def WorkerPc.hookReturned : WorkerPc → Bool
  | .exitLock | .exitTerminated | .exitNotify | .exited => true
  | _ => false

/-- What a positive answer of `is_terminated_locked` guarantees. -/
structure Settled (sh : Shared) (ps : Multiset Pc) : Prop where
  closed : sh.acct.admission.closed = true
  inflight : sh.acct.inflightCount = 0 ∧ ∀ p ∈ ps, p.home.inside = false
  finished : AllFinished sh.history
  balance : sh.acct.count .submitted = sh.acct.count .completed + sh.acct.count .cancelled
  queue : sh.globalQueue = []
  callbacks : ∀ j, .cancelBegin ∈ sh.history j → .cancelEnd ∈ sh.history j
  workers : ∀ p ∈ ps, ∀ w, p.home = .worker w → w.hookReturned = true

/-- Every step of an evaluation of `is_terminated_locked` goes on towards `true`. -/
def Answers (sh : Shared) : Prop :=
  (∀ k c, step sh c (.term k) = some (sh, .idle .inflight (.term k))) ∧
    ∀ r k c, step sh c (.idle r (.term k)) = some (sh, match r.next with
      | some r' => .idle r' (.term k)
      | none => k.confirmed)

section
variable {exitGuard parkGuard : Prop} {sh : Shared} {ps : Multiset Pc}

theorem Gauged.eq_zero (law : Gauged sh ps) {g : Gauge} (hg : g ≠ .liveWorkerCount) (hz : g.value sh = 0) :
    ∀ p ∈ ps, g.weight p = 0 := by
  intro p hp
  obtain ⟨rest, rfl⟩ := Multiset.exists_cons_of_mem hp
  have := law.le_value hg
  omega

theorem Consistent.settled (inv : Consistent exitGuard parkGuard sh ps) (ht : Terminated sh) : Settled sh ps := by
  obtain ⟨⟨-, hlive, hexit⟩, hclosed, hzero⟩ := ht
  have hin : sh.acct.inflightCount = 0 := hzero .inflight (by decide)
  have hslot : sh.acct.count .queueSlot = 0 := hzero .slots (by decide)
  have hrunning : sh.acct.count .running = 0 := hzero .running (by decide)
  have law := inv.recorded.law
  have hfin := law.quiet_finished hslot hrunning
  refine ⟨hclosed, ⟨hin, fun p hp => ?_⟩, hfin, law.quiet_balance hslot hrunning,
    inv.recorded.queue_nil (law.queued_zero hslot), fun j hc => ?_, fun p hp w hw => ?_⟩
  · have := inv.gauged.eq_zero (g := .inflight) (by rintro ⟨⟩) hin p hp
    cases h : p.home.inside with
    | false => rfl
    | true => simp [Gauge.weight, h] at this
  · exact law.cancel_returned (hfin j (law.accept_of_cancel hc)) hc
  · have hl := inv.gauged.eq_zero (g := .liveWorkers) (by rintro ⟨⟩) hlive p hp
    have he := inv.gauged.eq_zero (g := .exitingWorkers) (by rintro ⟨⟩) hexit p hp
    simp only [Gauge.weight, hw] at hl he
    cases w <;> first | rfl | simp [Pc.live, Pc.exiting, WorkerPc.live, WorkerPc.exiting] at hl he

theorem Terminated.answers (ht : Terminated sh) : Answers sh := by
  refine ⟨fun k c => ?_, fun r k c => ?_⟩
  · simp only [Dynamic.step, isTerminatedHead_iff.mpr ht.1, if_true]
  · have hz : r.value sh.acct = 0 := ht.2.2 r (by cases r <;> decide)
    simp only [Dynamic.step, idleStep, hz, if_true]
    cases r <;> rfl

end

theorem Terminated.of_run (hrun : machine.Run Machine.free (init config tickets) t)
    (ht : Terminated t.shared) (hu : machine.Run Machine.free t u) : Terminated u.shared := by
  refine invariant_along (J := fun sh _ => Terminated sh) hrun ?_ ?_ hu ht
  · exact fun sh p rest c sh' p' inv ht _ hm => ht.step (step_effect hm) inv.gauged inv.onto inv.growing
  · intro sh ps op sh' p _ ht hm
    rw [invoke_same hm]
    exact ht

/-- When `is_terminated_locked` answers `true` the pool has settled, and from then on
every evaluation answers `true`. -/
theorem terminated_for_good {k : TermCaller} (hrun : machine.Run Machine.free (init config tickets) t)
    (hm : .idle .cancelling (.term k) ∈ t.actors) (hz : t.shared.acct.count .cancelling = 0)
    (hu : machine.Run Machine.free t u) : Settled u.shared u.actors ∧ Answers u.shared := by
  have inv := Consistent.of_free_run hrun
  obtain ⟨hd, hs⟩ : Deserted t.shared ∧ t.shared.acct.Sealed 3 := inv.known _ (Multiset.mem_coe.mpr hm)
  have ht : Terminated t.shared := ⟨hd, hs.more (r := .cancelling) hz⟩
  have hend := Terminated.of_run hrun ht hu
  exact ⟨(Consistent.of_free_run (hrun.trans hu)).settled hend, hend.answers⟩

theorem lifecycle_monotone (hrun : machine.Run Machine.free (init config tickets) t) :
    t.shared.observed.Pairwise fun l l' => l.rank ≤ l'.rank :=
  (Consistent.of_free_run hrun).observed.sorted

end ThreadPools.Dynamic
