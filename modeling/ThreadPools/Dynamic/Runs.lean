import ThreadPools.Dynamic.Invariant

/-! # Runs of the dynamic pool -/
namespace ThreadPools.Dynamic
open Interleaving
open Wakeup (Role Place Mode Board Rules)

/-- The last registered worker exits only if no job is queued at that moment. -/
def DrainedAtExit : Machine.Guard Shared Pc Outcome := fun sh _ p _ =>
  p = .worker .drainInflight → sh.acct.inflightCount = 0 → sh.state.liveWorkers = 1 →
    sh.acct.queuedCount = 0

def Pc.broadcasts : Pc → Bool
  | .submit _ .broadcast => true
  | _ => false

/-- A worker parks during a graceful shutdown only if no wake token is left over: a
pending one belongs to a submitter that has still to notify. -/
def CoveredAtPark : Machine.Guard Shared Pc Outcome := fun sh ps p _ =>
  p = .worker .drainPark → sh.pendingWorkerWakes = 0 ∨ ∃ q ∈ ps, q.broadcasts = true

instance (sh : Shared) (ps : Multiset Pc) (p : Pc) (c : Outcome) : Decidable (DrainedAtExit sh ps p c) :=
  inferInstanceAs (Decidable (_ → _ → _ → _))

instance (sh : Shared) (ps : Multiset Pc) (p : Pc) (c : Outcome) : Decidable (CoveredAtPark sh ps p c) :=
  have : Decidable (∃ q ∈ ps, q.broadcasts = true) := Multiset.decidableExistsMultiset
  inferInstanceAs (Decidable (_ → _ ∨ ∃ q ∈ ps, q.broadcasts = true))

def restricted (exitGuard parkGuard : Prop) : Machine.Guard Shared Pc Outcome := fun sh ps p c =>
  (exitGuard → DrainedAtExit sh ps p c) ∧ (parkGuard → CoveredAtPark sh ps p c)

variable {sh sh' : Shared} {p p' q : Pc} {rest ps : Multiset Pc} {c : Outcome} {j : JobId} {B : Book}
variable {exitGuard parkGuard : Prop}

namespace Consistent

theorem onto (inv : Consistent exitGuard parkGuard sh (p ::ₘ rest)) :
    Recorded sh (p.onto (rest.bind Pc.holdings)) := by
  rw [Pc.onto_eq, ← Multiset.cons_bind]
  exact inv.recorded

/-- Workers are registered only while the pool is running. -/
theorem running_of_grows (inv : Consistent exitGuard parkGuard sh ps) (hp : p ∈ ps) (hg : 0 < p.role.grows) :
    sh.state.lifecycle = .running := by
  have hm := inv.wake.grow (total_pos_iff.mpr ⟨p.role, Multiset.mem_map_of_mem _ hp, hg⟩)
  cases hl : sh.state.lifecycle <;> first | rfl | simp [board, hl, mode, Mode.rank] at hm

theorem growing (inv : Consistent exitGuard parkGuard sh (p ::ₘ rest)) (hp : p.canGrow = true) :
    sh.state.lifecycle = .running := by
  refine inv.running_of_grows (Multiset.mem_cons_self p rest) ?_
  unfold Pc.canGrow at hp
  split at hp
  · exact Nat.one_pos
  · cases hp

theorem closed (inv : Consistent exitGuard parkGuard sh ps) (hl : sh.state.lifecycle ≠ .running) :
    sh.acct.admission.closed = true := by
  refine inv.wake.gate ?_
  cases h : sh.state.lifecycle <;> first | exact absurd h hl | simp [board, h, mode, Mode.rank]

/-- If no other worker stays, the worker that is about to exit is the last one. -/
theorem last_worker (inv : Consistent exitGuard parkGuard sh (.worker .drainInflight ::ₘ rest))
    (hs : total Role.stays (rest.map Pc.role) = 0) : sh.state.liveWorkers = 1 := by
  have hw := inv.gauged.works_rest
  have hle := Wakeup.works_le (rest.map Pc.role)
  have hl := inv.wake.lock
  have ht := inv.wake.tidy nofun
  have hone : Gauge.liveWorkers.weight (.worker .drainInflight) = 1 := rfl
  simp only [Multiset.map_cons, total_cons, Pc.role, WorkerPc.role, Role.holds, Role.strays] at hl ht
  omega

theorem raiser (h : ∃ q ∈ (.worker .drainPark ::ₘ rest : Multiset Pc), q.broadcasts = true) :
    0 < total Role.raises (rest.map Pc.role) := by
  obtain ⟨q, hq, hb⟩ := h
  rcases Multiset.mem_cons.mp hq with rfl | hq
  · cases hb
  · refine total_pos_iff.mpr ⟨q.role, Multiset.mem_map_of_mem Pc.role hq, ?_⟩
    unfold Pc.broadcasts at hb
    split at hb
    · exact Nat.one_pos
    · cases hb

theorem simulated (inv : Consistent exitGuard parkGuard sh (p ::ₘ rest))
    (hok : restricted exitGuard parkGuard sh (p ::ₘ rest) p c) (h : step sh c p = some (sh', p'))
    (hn : ∀ e, p' ≠ .panicked e) :
    Wakeup.Step (rules exitGuard parkGuard) (board sh) (rest.map Pc.role) p.role (board sh') p'.role
      ((spawned p c).map Pc.role) := by
  have law := inv.gauged
  have hk := inv.known p (Multiset.mem_cons_self p rest)
  have hrec := inv.onto
  cases p with
  | submit j p => exact submitStep_simulated law (fun hp => inv.growing (by rw [hp]; rfl)) h hn
  | spawn p k => exact spawnStep_simulated h hn
  | prestart => exact prestartStep_simulated law h
  | worker p =>
    refine workerStep_simulated law hrec inv.configured hk (fun hg hp hz hs => ?_) (fun hg hp => ?_) h hn
    · subst hp
      exact hrec.queue_nil (hok.1 hg rfl hz (inv.last_worker hs))
    · subst hp
      exact (hok.2 hg rfl).imp_right raiser
  | shutdown p => exact shutdownStep_simulated law hk h
  | stop p => exact stopStep_simulated law hk h hn
  | ticket j p => exact ticketStep_simulated h hn
  | cancel p k => exact cancelStep_simulated h hn
  | join p => exact joinStep_simulated law h hn
  | observe p => exact observeStep_simulated law h
  | setter p => exact setterStep_simulated h
  | notifyLock k =>
    obtain ⟨s, hs, h⟩ := Option.map_eq_some_iff.mp h
    obtain ⟨hf, rfl⟩ := sh.lock_eq_some hs
    cases h
    exact .acquire (law.holds_rest (by simp [hf]))
  | notifyAll k =>
    cases h
    cases k with
    | finishedCancelled k => cases k <;> exact .release (Nat.le_succ _) (by rintro ⟨⟩)
    | _ => exact .release (Nat.le_succ _) (by rintro ⟨⟩)
  | term k =>
    simp only [step] at h
    split at h <;> cases h
    · exact stutter rfl rfl
    · exact stutter rfl k.refuted_role
  | publish k =>
    cases h
    exact stutter rfl k.published_role
  | idle r k =>
    cases h
    exact stutter rfl (idleStep_role sh r k)
  | prestartUnlock =>
    cases h
    exact .release (le_refl _) (by rintro ⟨⟩)
  | prestarted _ => cases h
  | panicked _ => cases h

/-- A created worker holds nothing and has read nothing. -/
theorem spawned_fresh (hq : q ∈ spawned p c) : q = .worker .start := by
  unfold spawned at hq
  split at hq
  · exact List.mem_singleton.mp hq
  · cases hq

theorem step_preserved (inv : Consistent exitGuard parkGuard sh (p ::ₘ rest))
    (hok : restricted exitGuard parkGuard sh (p ::ₘ rest) p c) (h : step sh c p = some (sh', p')) :
    Consistent exitGuard parkGuard sh' (p' ::ₘ (↑(spawned p c) + rest)) := by
  have law := inv.gauged
  have hk := inv.known p (Multiset.mem_cons_self p rest)
  have hrec := inv.onto
  have hgrow : p.canGrow = true → sh.state.lifecycle = .running := inv.growing
  have eff := step_effect h
  -- An assertion that fails is one of a task counter, and the book excludes those.
  have hgauge : ∀ e, p' = .panicked e → ∃ d, e = .counter d := by
    rintro e rfl
    exact law.sound h
  have post := step_posted hrec h hgauge
  have hn : ∀ e, p' ≠ .panicked e := by
    intro e he
    obtain ⟨d, rfl⟩ := hgauge e he
    exact post.sound d he
  have hnew : ∀ q ∈ (↑(spawned p c) : Multiset Pc), q = .worker .start :=
    fun q hq => spawned_fresh (Multiset.mem_coe.mp hq)
  have hnone : (↑(spawned p c) : Multiset Pc).bind Pc.holdings = 0 := by
    refine (Multiset.bind_congr (g := fun _ => 0) fun q hq => ?_).trans (Multiset.bind_zero _)
    rw [hnew q hq]
    rfl
  refine ⟨?_, ?_, ?_, eff.maximum inv.configured, ?_, step_observed inv.observed hk eff law hrec hgrow, ?_⟩
  · intro q hq
    rcases Multiset.mem_cons.mp hq with rfl | hq
    · exact hn
    · rcases Multiset.mem_add.mp hq with hq | hq
      · rw [hnew q hq]
        exact nofun
      · exact inv.sound q (Multiset.mem_cons_of_mem hq)
  · have hr := post.recorded
    rw [Pc.onto_eq] at hr
    rwa [Multiset.cons_bind, Multiset.add_bind, hnone, zero_add]
  · refine law.advance (step_balanced law.locked law.queueLocked h hn) fun q hq g => ?_
    rw [spawned_fresh hq]
    cases g <;> rfl
  · intro q hq
    rcases Multiset.mem_cons.mp hq with rfl | hq
    · exact step_known hk inv.observed inv.closed h
    · rcases Multiset.mem_add.mp hq with hq | hq
      · rw [hnew q hq]
        exact nofun
      · exact (inv.known q (Multiset.mem_cons_of_mem hq)).frame hq eff law hrec hgrow
  · have hw := inv.wake
    rw [Multiset.map_cons] at hw ⊢
    rw [Multiset.map_add, Multiset.map_coe]
    exact hw.step (inv.simulated hok h hn)

/-- A new caller that holds no lock, is not inside the gate and has read nothing. -/
theorem join (inv : Consistent exitGuard parkGuard sh ps) (hs : ∀ e, p ≠ .panicked e)
    (hrec : Recorded sh (p.holdings + ps.bind Pc.holdings)) (hw : ∀ g : Gauge, g.weight p = 0)
    (ho : ∀ g : Gauge, g.owed p = 0) (hk : Known sh p) (hr : p.role = .plain .outside false) :
    Consistent exitGuard parkGuard sh (p ::ₘ ps) := by
  refine ⟨fun q hq => ?_, ?_, fun g => ?_, inv.configured, fun q hq => ?_, inv.observed, ?_⟩
  · rcases Multiset.mem_cons.mp hq with rfl | hq
    · exact hs
    · exact inv.sound q hq
  · rw [Multiset.cons_bind]
    exact hrec
  · rw [total_cons, total_cons, hw, ho, Nat.zero_add, Nat.zero_add]
    exact inv.gauged g
  · rcases Multiset.mem_cons.mp hq with rfl | hq
    · exact hk
    · exact inv.known q hq
  · rw [Multiset.map_cons, hr]
    exact inv.wake.join

/-- Handing a job to `submit` touches nothing that another actor can see. -/
theorem offer (inv : Consistent exitGuard parkGuard sh ps) (caller : ThreadId)
    (hj : (sh.jobs j).offered = false) :
    Consistent exitGuard parkGuard
      (sh.setJob j fun job => { job with offered := true, submitter := caller }) (.submit j .enter ::ₘ ps) := by
  have hrec := inv.recorded
  have hhist := sh.setJob_history j (f := fun job => { job with offered := true, submitter := caller })
    (show _ = _ ++ [] from (List.append_nil _).symm)
  rw [List.append_nil, Function.update_eq_self] at hhist
  have hoff : (sh.setJob j fun job => { job with offered := true, submitter := caller }).offered =
      Function.update sh.offered j true := by
    funext k
    by_cases hk : k = j
    · subst hk
      simp [Shared.offered]
    · simp [Shared.offered, Shared.setJob_jobs_ne _ _ hk, hk]
  refine ⟨fun q hq => ?_, ⟨?_, fun i hi => ?_⟩, fun g => ?_, inv.configured, fun q hq => ?_, inv.observed, ?_⟩
  · rcases Multiset.mem_cons.mp hq with rfl | hq
    · rintro _ ⟨⟩
    · exact inv.sound q hq
  · rw [hhist, hoff, Multiset.cons_bind]
    have hl := hrec.law.offer hj
    rwa [← Multiset.add_cons, ← Multiset.singleton_add] at hl
  · have he := hrec.linked i hi
    by_cases hij : i = j
    · subst hij
      rwa [Shared.setJob_jobs_self]
    · rwa [Shared.setJob_jobs_ne _ _ hij]
  · have hw : g.weight (.submit j .enter) = 0 := by cases g <;> rfl
    have ho : g.owed (.submit j .enter) = 0 := by cases g <;> rfl
    rw [total_cons, total_cons, hw, ho, Nat.zero_add, Nat.zero_add]
    have hg := inv.gauged g
    cases g <;> exact hg
  · rcases Multiset.mem_cons.mp hq with rfl | hq
    · rintro ⟨⟩
    · exact inv.known q hq
  · rw [Multiset.map_cons]
    exact inv.wake.join

theorem call_preserved {op : Op} (inv : Consistent exitGuard parkGuard sh ps)
    (h : invoke sh op = some (sh', p)) : Consistent exitGuard parkGuard sh' (p ::ₘ ps) := by
  have hrec : Recorded sh (0 + ps.bind Pc.holdings) := by
    rw [zero_add]
    exact inv.recorded
  cases op with
  | submit j caller =>
    simp only [invoke] at h
    split at h
    · cases h
    · cases h
      exact inv.offer caller (Bool.eq_false_iff.mpr ‹_›)
  | cancelQueued j caller =>
    simp only [invoke] at h
    split at h
    · cases h
      exact inv.join nofun hrec (fun g => by cases g <;> rfl) (fun g => by cases g <;> rfl) nofun rfl
    · cases h
  | _ =>
    cases h
    exact inv.join nofun hrec (fun g => by cases g <;> rfl) (fun g => by cases g <;> rfl) nofun rfl

theorem start (config : ThreadPoolConfig) (tickets : JobId → Bool) :
    Consistent exitGuard parkGuard (.new config tickets) 0 := by
  have none : ∀ p, p ∉ (0 : Multiset Pc) := Multiset.notMem_zero
  refine ⟨fun p hp => absurd hp (none p), ⟨?_, nofun⟩, fun g => ?_, config.maximumPoolSize_pos,
    fun p hp => absurd hp (none p), ?_, ?_⟩
  · exact .start config.queueCapacity
  · cases g <;> rfl
  · exact .start
  · exact .start_elastic nofun

theorem of_run {config : ThreadPoolConfig} {tickets : JobId → Bool} {t : State Shared Pc}
    (h : machine.Run (restricted exitGuard parkGuard) (init config tickets) t) :
    Consistent exitGuard parkGuard t.shared t.actors := by
  refine Machine.Run.invariant ?_ ?_ h (start config tickets)
  · intro sh p rest c sh' p' new inv hok hs
    obtain ⟨r, hr, he⟩ := Option.map_eq_some_iff.mp hs
    cases he
    exact inv.step_preserved hok hr
  · exact fun sh ps op sh' p inv hc => inv.call_preserved hc

theorem of_free_run {config : ThreadPoolConfig} {tickets : JobId → Bool} {t : State Shared Pc}
    (h : machine.Run Machine.free (init config tickets) t) : Consistent False False t.shared t.actors :=
  of_run (h.weaken fun _ _ _ _ _ => ⟨False.elim, False.elim⟩)

end Consistent

section
variable {config : ThreadPoolConfig} {tickets : JobId → Bool} {ok : Machine.Guard Shared Pc Outcome}
variable {s t : State Shared Pc}

/-- The induction over a run, with what is known of every state along it. -/
theorem induction_along {I J : Shared → Multiset Pc → Prop}
    (hI : ∀ u, machine.Run ok s u → I u.shared u.actors)
    (hstep : ∀ sh p rest c sh' p', I sh (p ::ₘ rest) → J sh (p ::ₘ rest) →
      ok sh (p ::ₘ rest) p c → step sh c p = some (sh', p') → J sh' (p' ::ₘ (↑(spawned p c) + rest)))
    (hcall : ∀ sh ps op sh' p, I sh ps → J sh ps → invoke sh op = some (sh', p) → J sh' (p ::ₘ ps))
    (h : machine.Run ok s t) (h₀ : J s.shared s.actors) : J t.shared t.actors := by
  refine h.invariant_along hI ?_ hcall h₀
  intro sh p rest c sh' p' new hc hi hok hm
  obtain ⟨r, hr, he⟩ := Option.map_eq_some_iff.mp hm
  cases he
  exact hstep sh p rest c r.1 r.2 hc hi hok hr

/-- The induction over a run that has reached `s`, with the consistency of every state. -/
theorem invariant_along {J : Shared → Multiset Pc → Prop} (hs : machine.Run ok (init config tickets) s)
    (hstep : ∀ sh p rest c sh' p', Consistent False False sh (p ::ₘ rest) → J sh (p ::ₘ rest) →
      ok sh (p ::ₘ rest) p c → step sh c p = some (sh', p') → J sh' (p' ::ₘ (↑(spawned p c) + rest)))
    (hcall : ∀ sh ps op sh' p, Consistent False False sh ps → J sh ps →
      invoke sh op = some (sh', p) → J sh' (p ::ₘ ps))
    (h : machine.Run ok s t) (h₀ : J s.shared s.actors) : J t.shared t.actors :=
  induction_along (fun _ hu => Consistent.of_free_run (Machine.Run.free (hs.trans hu))) hstep hcall h h₀

/-- What the actors know survives their own steps and those of others. -/
theorem knowledge_along {I : Shared → Multiset Pc → Prop} {K : Shared → Pc → Prop}
    (hI : ∀ u, machine.Run ok s u → I u.shared u.actors)
    (hown : ∀ sh p rest c sh' p', I sh (p ::ₘ rest) → K sh p →
      ok sh (p ::ₘ rest) p c → step sh c p = some (sh', p') → K sh' p')
    (hframe : ∀ sh p rest c sh' p' q, I sh (p ::ₘ rest) → q ∈ rest → K sh q →
      ok sh (p ::ₘ rest) p c → step sh c p = some (sh', p') → K sh' q)
    (hnew : ∀ sh, K sh (.worker .start))
    (hcall : ∀ sh ps op sh' p, I sh ps → invoke sh op = some (sh', p) → K sh' p ∧ ∀ q ∈ ps, K sh q → K sh' q)
    (h : machine.Run ok s t) (h₀ : ∀ p ∈ s.actors, K s.shared p) : ∀ p ∈ t.actors, K t.shared p := by
  refine induction_along (J := fun sh ps => ∀ p ∈ ps, K sh p) hI ?_ ?_ h h₀
  · intro sh p rest c sh' p' hc hk hok hm q hq
    rcases Multiset.mem_cons.mp hq with rfl | hq
    · exact hown sh p rest c sh' q hc (hk p (Multiset.mem_cons_self p rest)) hok hm
    · rcases Multiset.mem_add.mp hq with hq | hq
      · rw [Consistent.spawned_fresh (Multiset.mem_coe.mp hq)]
        exact hnew sh'
      · exact hframe sh p rest c sh' p' q hc hq (hk q (Multiset.mem_cons_of_mem hq)) hok hm
  · intro sh ps op sh' p hc hk hm q hq
    obtain ⟨hp, hframe⟩ := hcall sh ps op sh' p hc hm
    rcases Multiset.mem_cons.mp hq with rfl | hq
    · exact hp
    · exact hframe q hq (hk q hq)

theorem known_along {K : Shared → Pc → Prop} (hs : machine.Run ok (init config tickets) s)
    (hown : ∀ sh p rest c sh' p', Consistent False False sh (p ::ₘ rest) → K sh p →
      ok sh (p ::ₘ rest) p c → step sh c p = some (sh', p') → K sh' p')
    (hframe : ∀ sh p rest c sh' p' q, Consistent False False sh (p ::ₘ rest) → q ∈ rest → K sh q →
      ok sh (p ::ₘ rest) p c → step sh c p = some (sh', p') → K sh' q)
    (hnew : ∀ sh, K sh (.worker .start))
    (hcall : ∀ sh ps op sh' p, Consistent False False sh ps → invoke sh op = some (sh', p) →
      K sh' p ∧ ∀ q ∈ ps, K sh q → K sh' q)
    (h : machine.Run ok s t) (h₀ : ∀ p ∈ s.actors, K s.shared p) : ∀ p ∈ t.actors, K t.shared p :=
  knowledge_along (fun _ hu => Consistent.of_free_run (Machine.Run.free (hs.trans hu))) hown hframe hnew hcall h h₀

/-- A call changes nothing but its own job. -/
theorem invoke_same {sh sh' : Shared} {op : Op} {p : Pc} (h : invoke sh op = some (sh', p)) :
    sh' = { sh with jobs := sh'.jobs } := by
  cases op with
  | submit j caller =>
    simp only [invoke] at h
    split at h <;> cases h
    rfl
  | cancelQueued j caller =>
    simp only [invoke] at h
    split at h <;> cases h
    rfl
  | _ =>
    cases h
    rfl

end

theorem Consistent.sound_step (inv : Consistent False False sh (p ::ₘ rest))
    (h : step sh c p = some (sh', p')) : ∀ e, p' ≠ .panicked e :=
  (inv.step_preserved ⟨False.elim, False.elim⟩ h).sound p' (Multiset.mem_cons_self p' _)

end ThreadPools.Dynamic
