import ThreadPools.Fixed.Invariant

/-! # Runs of the fixed pool -/
namespace ThreadPools.Fixed
open Interleaving
open Wakeup (Role Place Mode Board Rules)

/-- The only worker of a pool of size one exits only if no job is queued at that moment. -/
def DrainedAtExit : Machine.Guard Shared Pc Outcome := fun sh _ p _ =>
  p = .worker .drainInflight → sh.acct.inflightCount = 0 → sh.poolSize = 1 → sh.acct.queuedCount = 0

def Pc.broadcasts : Pc → Bool
  | .submit _ .broadcast => true
  | _ => false

/-- A worker parks during a graceful shutdown only if no wake token is left over: a
pending one belongs to a submitter that has still to notify. -/
def CoveredAtPark : Machine.Guard Shared Pc Outcome := fun sh ps p _ =>
  p = .worker .drainPark → sh.pendingWorkerWakes = 0 ∨ ∃ q ∈ ps, q.broadcasts = true

instance (sh : Shared) (ps : Multiset Pc) (p : Pc) (c : Outcome) : Decidable (DrainedAtExit sh ps p c) :=
  inferInstanceAs (Decidable (_ → _ → _ → _))

instance (sh : Shared) (ps : Multiset Pc) (p : Pc) (c : Outcome) : Decidable (CoveredAtPark sh ps p c) :=
  have : Decidable (∃ q ∈ ps, q.broadcasts = true) := Multiset.decidableExistsMultiset
  inferInstanceAs (Decidable (_ → _ ∨ ∃ q ∈ ps, q.broadcasts = true))

def restricted (exitGuard parkGuard : Prop) : Machine.Guard Shared Pc Outcome := fun sh ps p c =>
  (exitGuard → p = .worker .drainInflight → sh.acct.inflightCount = 0 → sh.acct.queuedCount = 0) ∧
    (parkGuard → CoveredAtPark sh ps p c)

variable {sh sh' : Shared} {p p' q : Pc} {rest ps : Multiset Pc} {c : Outcome} {j : JobId} {B : Book}
variable {exitGuard parkGuard : Prop}

namespace Consistent

theorem onto (inv : Consistent exitGuard parkGuard sh (p ::ₘ rest)) :
    Recorded sh (p.onto (rest.bind Pc.holdings)) := by
  rw [Pc.onto_eq, ← Multiset.cons_bind]
  exact inv.recorded

theorem closed (inv : Consistent exitGuard parkGuard sh ps) (hl : sh.state.lifecycle ≠ .running) :
    sh.acct.admission.closed = true := by
  refine inv.wake.gate ?_
  cases h : sh.state.lifecycle <;> first | exact absurd h hl | simp [board, h, mode, Mode.rank]

theorem raiser (h : ∃ q ∈ (.worker .drainPark ::ₘ rest : Multiset Pc), q.broadcasts = true) :
    0 < total Role.raises (rest.map Pc.role) := by
  obtain ⟨q, hq, hb⟩ := h
  rcases Multiset.mem_cons.mp hq with rfl | hq
  · cases hb
  · refine total_pos_iff.mpr ⟨q.role, Multiset.mem_map_of_mem Pc.role hq, ?_⟩
    unfold Pc.broadcasts at hb
    split at hb
    · exact Nat.one_pos
    · cases hb

theorem simulated (inv : Consistent exitGuard parkGuard sh (p ::ₘ rest))
    (hok : restricted exitGuard parkGuard sh (p ::ₘ rest) p c) (h : step sh c p = some (sh', p'))
    (hn : ∀ e, p' ≠ .panicked e) :
    Wakeup.Step (rules sh.poolSize exitGuard parkGuard) (board sh) (rest.map Pc.role) p.role (board sh')
      p'.role [] := by
  have law := inv.gauged
  have hk := inv.known p (Multiset.mem_cons_self p rest)
  have hrec := inv.onto
  cases p with
  | submit j p => exact submitStep_simulated law h hn
  | worker p =>
    refine workerStep_simulated law hrec hk (fun hg hp hz => ?_) (fun hg hp => ?_) h hn
    · subst hp
      exact hrec.queue_nil (hok.1 hg rfl hz)
    · subst hp
      exact (hok.2 hg rfl).imp_right raiser
  | shutdown p => exact shutdownStep_simulated law hk h
  | stop p => exact stopStep_simulated law hk.2 h hn
  | cancel p k => exact cancelStep_simulated h hn
  | join p => exact joinStep_simulated law h hn
  | observe p => exact observeStep_simulated law h
  | idle r k =>
    cases h
    exact stutter rfl (idleStep_role sh r k)
  | panicked _ => cases h

theorem step_preserved (inv : Consistent exitGuard parkGuard sh (p ::ₘ rest))
    (hok : restricted exitGuard parkGuard sh (p ::ₘ rest) p c) (h : step sh c p = some (sh', p')) :
    Consistent exitGuard parkGuard sh' (p' ::ₘ rest) := by
  have law := inv.gauged
  have hk := inv.known p (Multiset.mem_cons_self p rest)
  have hrec := inv.onto
  have eff := step_effect h
  -- An assertion that fails is one of a task counter, and the book excludes those.
  have hgauge : ∀ e, p' = .panicked e → ∃ d, e = .counter d := by
    rintro e rfl
    exact law.sound h
  have post := step_posted hrec h hgauge
  have hn : ∀ e, p' ≠ .panicked e := by
    intro e he
    obtain ⟨d, rfl⟩ := hgauge e he
    exact post.sound d he
  refine ⟨?_, ?_, law.advance (step_balanced law.locked h hn), ?_,
    step_observed inv.observed hk eff law hrec, ?_⟩
  · intro q hq
    rcases Multiset.mem_cons.mp hq with rfl | hq
    · exact hn
    · exact inv.sound q (Multiset.mem_cons_of_mem hq)
  · have hr := post.recorded
    rwa [Pc.onto_eq, ← Multiset.cons_bind] at hr
  · intro q hq
    rcases Multiset.mem_cons.mp hq with rfl | hq
    · exact step_known hk inv.observed inv.closed h
    · exact (inv.known q (Multiset.mem_cons_of_mem hq)).frame hq eff law hrec
  · have hw := inv.wake
    rw [Multiset.map_cons] at hw ⊢
    rw [eff.size]
    simpa using hw.step (inv.simulated hok h hn)

theorem join (inv : Consistent exitGuard parkGuard sh ps) (hs : ∀ e, p ≠ .panicked e)
    (hh : p.holdings = 0) (hw : ∀ g : Gauge, g.weight p = 0) (hk : Known sh p)
    (hr : p.role = .plain .outside false) : Consistent exitGuard parkGuard sh (p ::ₘ ps) := by
  refine ⟨fun q hq => ?_, ?_, fun g => ?_, fun q hq => ?_, inv.observed, ?_⟩
  · rcases Multiset.mem_cons.mp hq with rfl | hq
    · exact hs
    · exact inv.sound q hq
  · rw [Multiset.cons_bind, hh, zero_add]
    exact inv.recorded
  · rw [total_cons, hw, Nat.zero_add]
    exact inv.gauged g
  · rcases Multiset.mem_cons.mp hq with rfl | hq
    · exact hk
    · exact inv.known q hq
  · rw [Multiset.map_cons, hr]
    exact inv.wake.join

/-- Handing a job to `submit` touches nothing that another actor can see. -/
theorem offer (inv : Consistent exitGuard parkGuard sh ps) (hj : sh.offered j = false) :
    Consistent exitGuard parkGuard { sh with offered := Function.update sh.offered j true }
      (.submit j .enter ::ₘ ps) := by
  refine ⟨fun q hq => ?_, ?_, fun g => ?_, fun q hq => ?_, inv.observed, ?_⟩
  · rcases Multiset.mem_cons.mp hq with rfl | hq
    · exact nofun
    · exact inv.sound q hq
  · have hl := Law.offer inv.recorded hj
    rw [← Multiset.add_cons, ← Multiset.singleton_add] at hl
    rw [Multiset.cons_bind]
    exact hl
  · have hw : g.weight (.submit j .enter) = 0 := by cases g <;> rfl
    rw [total_cons, hw, Nat.zero_add]
    have hg := inv.gauged g
    cases g <;> exact hg
  · rcases Multiset.mem_cons.mp hq with rfl | hq
    · exact nofun
    · exact inv.known q hq
  · rw [Multiset.map_cons]
    exact inv.wake.join

theorem call_preserved {op : Op} (inv : Consistent exitGuard parkGuard sh ps)
    (h : invoke sh op = some (sh', p)) : Consistent exitGuard parkGuard sh' (p ::ₘ ps) := by
  cases op with
  | submit j =>
    simp only [invoke] at h
    split at h
    · cases h
    · cases h
      exact inv.offer (Bool.eq_false_iff.mpr ‹_›)
  | stop =>
    cases h
    exact inv.join nofun rfl (fun g => by cases g <;> rfl) ⟨nofun, nofun⟩ rfl
  | _ =>
    cases h
    exact inv.join nofun rfl (fun g => by cases g <;> rfl) nofun rfl

theorem start (config : FixedThreadPoolConfig) :
    Consistent exitGuard parkGuard (.new config) (Multiset.replicate config.poolSize (.worker .start)) := by
  have hmem : ∀ p ∈ Multiset.replicate config.poolSize (Pc.worker .start), p = .worker .start :=
    fun p hp => Multiset.eq_of_mem_replicate hp
  refine ⟨fun p hp => ?_, ?_, fun g => ?_, fun p hp => ?_, .start, ?_⟩
  · rw [hmem p hp]
    rintro _ ⟨⟩
  · have hz : (Multiset.replicate config.poolSize (Pc.worker .start)).bind Pc.holdings = 0 := by
      refine (Multiset.bind_congr (g := fun _ => 0) fun p hp => ?_).trans (Multiset.bind_zero _)
      rw [hmem p hp]
      rfl
    rw [hz]
    exact .start config.queueCapacity
  · have ht : total g.weight (Multiset.replicate config.poolSize (Pc.worker .start)) =
        config.poolSize * g.weight (.worker .start) := by simp [total]
    rw [ht]
    cases g with
    | liveWorkers => exact (Nat.mul_one _).symm
    | _ => rfl
  · rw [hmem p hp]
    rintro ⟨⟩
  · rw [Multiset.map_replicate]
    exact .start_fixed trivial config.poolSize_pos

theorem of_run {config : FixedThreadPoolConfig} {t : State Shared Pc}
    (h : machine.Run (restricted exitGuard parkGuard) (init config) t) :
    Consistent exitGuard parkGuard t.shared t.actors := by
  refine Machine.Run.invariant ?_ ?_ h ?_
  · intro sh p rest c sh' p' new inv hok hs
    obtain ⟨r, hr, he⟩ := Option.map_eq_some_iff.mp hs
    cases he
    simpa using inv.step_preserved hok hr
  · exact fun sh ps op sh' p inv hc => inv.call_preserved hc
  · rw [init, Multiset.coe_replicate]
    exact start config

theorem of_free_run {config : FixedThreadPoolConfig} {t : State Shared Pc}
    (h : machine.Run Machine.free (init config) t) : Consistent False False t.shared t.actors :=
  of_run (h.weaken fun _ _ _ _ _ => ⟨False.elim, False.elim⟩)

end Consistent

section
variable {config : FixedThreadPoolConfig} {ok : Machine.Guard Shared Pc Outcome} {s t : State Shared Pc}

theorem invariant_along {J : Shared → Multiset Pc → Prop} (hs : machine.Run ok (init config) s)
    (hstep : ∀ sh p rest c sh' p', Consistent False False sh (p ::ₘ rest) → J sh (p ::ₘ rest) →
      ok sh (p ::ₘ rest) p c → step sh c p = some (sh', p') → J sh' (p' ::ₘ rest))
    (hcall : ∀ sh ps op sh' p, Consistent False False sh ps → J sh ps →
      invoke sh op = some (sh', p) → J sh' (p ::ₘ ps))
    (h : machine.Run ok s t) (h₀ : J s.shared s.actors) : J t.shared t.actors := by
  refine h.invariant_along (fun u hu => Consistent.of_free_run (Machine.Run.free (hs.trans hu))) ?_ hcall h₀
  intro sh p rest c sh' p' new hc hi hok hm
  obtain ⟨r, hr, he⟩ := Option.map_eq_some_iff.mp hm
  cases he
  simpa using hstep sh p rest c r.1 r.2 hc hi hok hr

theorem known_along {K : Shared → Pc → Prop} (hs : machine.Run ok (init config) s)
    (hown : ∀ sh p rest c sh' p', Consistent False False sh (p ::ₘ rest) → K sh p →
      ok sh (p ::ₘ rest) p c → step sh c p = some (sh', p') → K sh' p')
    (hframe : ∀ sh p rest c sh' p' q, Consistent False False sh (p ::ₘ rest) → q ∈ rest → K sh q →
      ok sh (p ::ₘ rest) p c → step sh c p = some (sh', p') → K sh' q)
    (hcall : ∀ sh ps op sh' p, Consistent False False sh ps → invoke sh op = some (sh', p) →
      K sh' p ∧ ∀ q ∈ ps, K sh q → K sh' q)
    (h : machine.Run ok s t) (h₀ : ∀ p ∈ s.actors, K s.shared p) : ∀ p ∈ t.actors, K t.shared p := by
  refine invariant_along (J := fun sh ps => ∀ p ∈ ps, K sh p) hs ?_ ?_ h h₀
  · intro sh p rest c sh' p' hc hk hok hm q hq
    rcases Multiset.mem_cons.mp hq with rfl | hq
    · exact hown sh p rest c sh' q hc (hk p (Multiset.mem_cons_self p rest)) hok hm
    · exact hframe sh p rest c sh' p' q hc hq (hk q (Multiset.mem_cons_of_mem hq)) hok hm
  · intro sh ps op sh' p hc hk hm q hq
    obtain ⟨hp, hframe⟩ := hcall sh ps op sh' p hc hm
    rcases Multiset.mem_cons.mp hq with rfl | hq
    · exact hp
    · exact hframe q hq (hk q hq)

/-- A call starts at its first control point and changes nothing but what is offered. -/
theorem invoke_same {sh sh' : Shared} {op : Op} {p : Pc} (h : invoke sh op = some (sh', p)) :
    sh' = { sh with offered := sh'.offered } := by
  cases op with
  | submit j =>
    simp only [invoke] at h
    split at h <;> cases h
    rfl
  | _ =>
    cases h
    rfl

theorem poolSize_eq (h : machine.Run ok (init config) t) : t.shared.poolSize = config.poolSize := by
  refine invariant_along (J := fun sh _ => sh.poolSize = config.poolSize) .refl ?_ ?_ h rfl
  · exact fun sh p rest c sh' p' _ he _ hm => (step_effect hm).size.trans he
  · intro sh ps op sh' p _ he hm
    rw [invoke_same hm]
    exact he

end

end ThreadPools.Fixed
