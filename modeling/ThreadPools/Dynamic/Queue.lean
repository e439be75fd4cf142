import ThreadPools.Interleaving.Fifo
import ThreadPools.Interleaving.Tally
import ThreadPools.Dynamic.Tickets

/-! # The removable FIFO of the dynamic pool

An entry owns its callbacks exactly while it stands in the queue. Whoever removes an
entry therefore finds its callbacks, and what workers have claimed together with what
is still queued is the order of publication without the removed jobs.
-/
namespace ThreadPools.Dynamic
open Interleaving
open Move (call)

variable {sh sh' : Shared} {p p' q : Pc} {ps rest : Multiset Pc} {c : Outcome} {j : JobId}

def queueEvents (sh : Shared) : Pc → List (Fifo.Event JobId)
  | .submit j .decideEntry =>
    match (sh.jobs j).entry with
    | some (.accepting _ true) => []
    | _ => [.push j]
  | .worker .takePop => sh.globalQueue.head?.toList.map .pop
  | .stop (.drain _ _) => sh.globalQueue.head?.toList.map .remove
  | .ticket j .remove => if j ∈ sh.globalQueue then [.remove j] else []
  | _ => []

/-- A step leaves the queue alone, appends the job of its submitter, or hands a job over
to the actor that has removed it. -/
inductive QueueStep (sh : Shared) (p : Pc) (sh' : Shared) (p' : Pc) : List (Fifo.Event JobId) → Prop where
  | still (hq : sh'.globalQueue = sh.globalQueue) : QueueStep sh p sh' p' []
  | push {j : JobId} (hp : p = .submit j .decideEntry) (hq : sh'.globalQueue = sh.globalQueue ++ [j])
      (he : (sh'.jobs j).entry = some .queued) : QueueStep sh p sh' p' [.push j]
  | pop {j : JobId} (hq : sh.globalQueue = j :: sh'.globalQueue) (he : (sh'.jobs j).entry = some .taken)
      (hp : p' = .worker (.claimQueued j)) : QueueStep sh p sh' p' [.pop j]
  | remove {j : JobId} (hm : j ∈ sh.globalQueue) (hq : sh'.globalQueue = sh.globalQueue.erase j)
      (he : (sh'.jobs j).entry = some .taken) (ho : (j, .queued) ∈ p'.holdings) : QueueStep sh p sh' p' [.remove j]

theorem setEntry_entry (sh : Shared) (j : JobId) (e : QueuedJobState) : ((sh.setEntry j e).jobs j).entry = some e := by
  simp [Shared.setEntry]

/-- Whoever removes an entry from the queue finds its callbacks. -/
theorem takeQueued_linked (hl : ∀ j ∈ sh.globalQueue, (sh.jobs j).entry = some .queued) (hj : j ∈ sh.globalQueue)
    (q : List JobId) : ({ sh with globalQueue := q }).takeQueued j =
      some (({ sh with globalQueue := q }).setEntry j .taken) := if_pos (hl j hj)

theorem queueEvents_publish (h : ∀ owner, (sh.jobs j).entry ≠ some (.accepting owner true)) :
    queueEvents sh (.submit j .decideEntry) = [.push j] := by
  simp only [queueEvents]

theorem submitStep_queue {p : SubmitPc} (h : submitStep sh j c p = some (sh', p')) :
    QueueStep sh (.submit j p) sh' p' (queueEvents sh (.submit j p)) := by
  cases p with
  | decideEntry =>
    simp only [submitStep] at h
    split at h
    · rename_i he
      cases h
      simp only [queueEvents, he]
      exact .still rfl
    · rename_i hne
      cases h
      rw [queueEvents_publish hne]
      exact .push rfl rfl (setEntry_entry sh j .queued)
  | _ =>
    simp only [submitStep, Shared.lock, Shared.lockQueue, Shared.withLock, Shared.lower] at h
    repeat' split at h
    all_goals cases h
    all_goals exact .still rfl

theorem workerStep_queue {p : WorkerPc} (hl : ∀ j ∈ sh.globalQueue, (sh.jobs j).entry = some .queued)
    (h : workerStep sh c p = some (sh', p')) : QueueStep sh (.worker p) sh' p' (queueEvents sh (.worker p)) := by
  cases p with
  | takePop =>
    simp only [workerStep] at h
    cases hq : sh.globalQueue with
    | nil =>
      simp only [hq] at h
      cases h
      simp only [queueEvents, hq]
      exact .still rfl
    | cons i rest =>
      simp only [hq] at h
      rw [takeQueued_linked hl (hq ▸ List.mem_cons_self) rest] at h
      cases h
      simp only [queueEvents, hq]
      exact .pop hq (setEntry_entry _ i _) rfl
  | _ =>
    simp only [workerStep, Shared.lock, Shared.lockQueue, Shared.lower] at h
    repeat' split at h
    all_goals first | (simp only [Option.map_some] at h; (repeat' split at h) <;> cases h) | cases h
    all_goals exact .still rfl

theorem stopStep_queue {p : StopPc} (hl : ∀ j ∈ sh.globalQueue, (sh.jobs j).entry = some .queued)
    (h : stopStep sh p = some (sh', p')) : QueueStep sh (.stop p) sh' p' (queueEvents sh (.stop p)) := by
  cases p with
  | drain running jobs =>
    simp only [stopStep] at h
    cases hq : sh.globalQueue with
    | nil =>
      simp only [hq] at h
      cases h
      simp only [queueEvents, hq]
      exact .still rfl
    | cons i rest =>
      simp only [hq] at h
      rw [takeQueued_linked hl (hq ▸ List.mem_cons_self) rest] at h
      cases h
      simp only [queueEvents, hq]
      refine .remove (hq ▸ List.mem_cons_self) ?_ (setEntry_entry _ i _) (Multiset.mem_cons_self _ _)
      rw [hq, List.erase_cons_head]
      rfl
  | next jobs report =>
    cases jobs <;> cases h
    all_goals exact .still rfl
  | lockState =>
    obtain ⟨s, hs, h⟩ := Option.map_eq_some_iff.mp h
    obtain ⟨-, rfl⟩ := sh.lock_eq_some hs
    cases hlife : sh.state.lifecycle <;> simp only [hlife] at h <;> cases h
    all_goals exact .still rfl
  | _ =>
    simp only [stopStep, Shared.lock, Shared.lockQueue, Shared.withLock, Shared.lower] at h
    repeat' split at h
    all_goals cases h
    all_goals exact .still rfl

theorem ticketStep_queue {p : TicketPc} (hl : ∀ j ∈ sh.globalQueue, (sh.jobs j).entry = some .queued)
    (h : ticketStep sh j p = some (sh', p')) : QueueStep sh (.ticket j p) sh' p' (queueEvents sh (.ticket j p)) := by
  cases p with
  | remove =>
    simp only [ticketStep] at h
    simp only [queueEvents]
    split at h
    · rename_i hm
      rw [takeQueued_linked hl hm] at h
      cases h
      rw [if_pos hm]
      exact .remove hm rfl (setEntry_entry _ j _) (Multiset.mem_cons_self (j, Phase.queued) 0)
    · rename_i hm
      cases h
      rw [if_neg hm]
      exact .still rfl
  | _ =>
    simp only [ticketStep, Shared.lockQueue, Shared.lower] at h
    repeat' split at h
    all_goals cases h
    all_goals exact .still rfl

theorem step_queue (hl : ∀ j ∈ sh.globalQueue, (sh.jobs j).entry = some .queued)
    (h : step sh c p = some (sh', p')) : QueueStep sh p sh' p' (queueEvents sh p) := by
  cases p with
  | submit j p => exact submitStep_queue h
  | worker p => exact workerStep_queue hl h
  | stop p => exact stopStep_queue hl h
  | ticket j p => exact ticketStep_queue hl h
  | spawn p k =>
    cases p <;> cases k <;> simp only [step, spawnStep] at h
    all_goals repeat' split at h
    all_goals cases h
    all_goals exact .still rfl
  | prestart =>
    obtain ⟨s, hs, h⟩ := Option.map_eq_some_iff.mp h
    obtain ⟨-, rfl⟩ := sh.lock_eq_some hs
    repeat' split at h
    all_goals cases h
    all_goals exact .still rfl
  | shutdown p =>
    cases p with
    | lockState =>
      obtain ⟨s, hs, h⟩ := Option.map_eq_some_iff.mp h
      obtain ⟨-, rfl⟩ := sh.lock_eq_some hs
      split at h <;> cases h
      all_goals exact .still rfl
    | _ =>
      cases h
      all_goals exact .still rfl
  | cancel p k =>
    cases p <;> cases k <;> simp only [step, cancelStep, Shared.lower] at h
    all_goals repeat' split at h
    all_goals cases h
    all_goals exact .still rfl
  | join p =>
    cases p
    all_goals simp only [step, joinStep, Shared.lock] at h
    all_goals repeat' split at h
    all_goals cases h
    all_goals exact .still rfl
  | observe p =>
    cases p with
    | unlock o b =>
      cases o <;> cases h
      all_goals exact .still rfl
    | _ =>
      simp only [step, observeStep, Shared.lock] at h
      repeat' split at h
      all_goals cases h
      all_goals exact .still rfl
  | setter p =>
    cases p
    all_goals simp only [step, setterStep, Shared.withLock] at h
    all_goals repeat' split at h
    all_goals cases h
    all_goals exact .still rfl
  | notifyLock k =>
    obtain ⟨s, hs, h⟩ := Option.map_eq_some_iff.mp h
    obtain ⟨-, rfl⟩ := sh.lock_eq_some hs
    cases h
    exact .still rfl
  | prestarted _ => cases h
  | panicked _ => cases h
  | _ =>
    cases h
    exact .still rfl

theorem QueueStep.replay {es : List (Fifo.Event JobId)} (h : QueueStep sh p sh' p' es) :
    Fifo.replay sh.globalQueue es = some sh'.globalQueue := by
  cases h with
  | still hq => rw [hq]; rfl
  | push _ hq _ => rw [hq]; rfl
  | pop hq => rw [hq]; simp [Fifo.replay, Fifo.Event.next]
  | remove hm hq => rw [hq]; simp [Fifo.replay, Fifo.Event.next, hm]

/-- The moves of an entry. An unticketed job gets its entry when it is published. -/
inductive EntryMove : Option QueuedJobState → Option QueuedJobState → Prop where
  | accept (owner : ThreadId) : EntryMove (some .prepared) (some (.accepting owner false))
  | request (owner : ThreadId) : EntryMove (some (.accepting owner false)) (some (.accepting owner true))
  | publish (owner : ThreadId) : EntryMove (some (.accepting owner false)) (some .queued)
  | create : EntryMove none (some .queued)
  | take : EntryMove (some .queued) (some .taken)
  | honour (owner : ThreadId) : EntryMove (some (.accepting owner true)) (some .cancelling)
  | settle : EntryMove (some .cancelling) (some .cancelled)
  | reject (owner : ThreadId) (requested : Bool) : EntryMove (some (.accepting owner requested)) (some .rejected)

/-- The stage of the submitter tells which moves of the entry a step can be. -/
theorem EntryStep.move {e e' : Option QueuedJobState} (h : EntryStep sh j p e e') (he : (sh.jobs j).entry = e)
    (hs : p.call = some (.submit j) → p.stage.Admits (sh.jobs j)) : EntryMove e e' := by
  cases h with
  | begin ht =>
    have ha := hs rfl
    simp only [Pc.stage, Pc.home, Pc.directStage, SubmitPc.stage, Stage.Admits, ht, if_true, he] at ha
    rw [ha]
    exact .accept _
  | reject ht =>
    have ha := hs rfl
    simp only [Pc.stage, Pc.home, Pc.directStage, SubmitPc.stage, Stage.Admits, ht, if_true, he] at ha
    obtain ⟨b, rfl⟩ := ha
    exact .reject _ b
  | ask _ => exact .request _
  | honour => exact .honour _
  | publish hne =>
    have ha := hs rfl
    simp only [Pc.stage, Pc.home, Pc.directStage, SubmitPc.stage, Stage.Admits, he] at ha
    split at ha
    · obtain ⟨b, rfl⟩ := ha
      cases b
      · exact .publish _
      · exact absurd rfl (hne _)
    · rw [ha]
      exact .create
  | take _ => exact .take
  | settle =>
    have ha : (sh.jobs j).entry = some .cancelling := hs rfl
    rw [← he, ha]
    exact .settle

def Listed (sh : Shared) : Prop := ∀ j, (sh.jobs j).entry = some .queued → j ∈ sh.globalQueue

theorem Listed.step (hl : Listed sh) (hs : QueueStep sh p sh' p' (queueEvents sh p)) (w : Work sh p sh' p') :
    Listed sh' := by
  intro j hj
  have old : (sh.jobs j).entry = some .queued → j ∈ sh'.globalQueue := by
    intro ho
    have hm := hl j ho
    generalize queueEvents sh p = es at hs
    cases hs with
    | still hq =>
      rw [hq]
      exact hm
    | push _ hq _ =>
      rw [hq]
      exact List.mem_append_left _ hm
    | pop hq he _ =>
      rw [hq] at hm
      rcases List.mem_cons.mp hm with rfl | hm
      · rw [he] at hj
        cases hj
      · exact hm
    | @remove i _ hq he _ =>
      by_cases hij : j = i
      · subst hij
        rw [he] at hj
        cases hj
      · rw [hq]
        exact (List.mem_erase_of_ne hij).mpr hm
  rcases w.entry j with he | he
  · exact old (he ▸ hj)
  generalize hold : (sh.jobs j).entry = e at he
  rw [hj] at he
  cases he with
  | publish hne =>
    rw [← hold] at hne
    rw [queueEvents_publish hne] at hs
    cases hs with
    | push _ hq _ =>
      rw [hq]
      exact List.mem_append_right _ (List.mem_singleton_self j)

theorem SubmitPc.queues_of_phase {p : SubmitPc} (h : p.phase = some .queued) : p.queues = true := by
  cases p with
  | leave result | departGate result | departWaiters result | returned result =>
    cases result <;> cases h
  | _ => first | rfl | cases h

theorem WorkerPc.queues_of_held {p : WorkerPc} (h : p.held = some (j, .queued)) : p.queues = true := by
  cases p <;> first | rfl | cases h

theorem TicketPc.queues_of_phase {p : TicketPc} (h : p.phase = some .queued) : p.queues = true := by
  cases p <;> first | rfl | cases h

theorem StopPc.queues_of_holdings {p : StopPc} (h : (j, .queued) ∈ p.holdings 0) : p.queues = true := by
  have key : ∀ jobs : List JobId, (j, .queued) ∉ Book.entered .withdrawn jobs 0 := by
    intro jobs hm
    have := Book.entered_phase hm
    cases this
  cases p with
  | drain _ jobs | drainWithdraw _ jobs _ | drainCancelling _ jobs _ | unlockQueue _ jobs => rfl
  | notifyAll jobs _ | next jobs _ => exact absurd h (key jobs)
  | _ => exact absurd h (Multiset.notMem_zero _)

/-- No shared function is called under the queue lock. -/
theorem Pc.queues_of_home (h : p.home.queues = true) : p.queues = true := by
  cases p with
  | notifyLock k | notifyAll k => cases k <;> cases h
  | term k | publish k =>
    cases k with
    | notify k => cases k <;> cases h
    | observer o => cases o <;> cases h
    | _ => cases h
  | idle r k =>
    cases k with
    | term k =>
      cases k with
      | notify k => cases k <;> cases h
      | observer o => cases o <;> cases h
      | _ => cases h
    | _ => cases h
  | _ => exact h

theorem eq_of_mem_single {e : JobId × Phase} {o : Option (JobId × Phase)} (h : e ∈ Book.single o 0) : o = some e := by
  cases o with
  | none => exact absurd h (Multiset.notMem_zero e)
  | some x => rw [Multiset.mem_singleton.mp h]

/-- Only a holder of the queue lock holds a job that is counted as queued. -/
theorem Pc.queues_of_queued (h : (j, .queued) ∈ p.holdings) : p.queues = true := by
  have hm : (j, .queued) ∈ p.home.direct 0 := h
  refine Pc.queues_of_home ?_
  cases hp : p.home with
  | submit i q =>
    rw [hp] at hm
    obtain ⟨ph, hph, he⟩ := Option.map_eq_some_iff.mp (eq_of_mem_single hm)
    cases he
    exact SubmitPc.queues_of_phase hph
  | worker q =>
    rw [hp] at hm
    exact WorkerPc.queues_of_held (eq_of_mem_single hm)
  | ticket i q =>
    rw [hp] at hm
    obtain ⟨ph, hph, he⟩ := Option.map_eq_some_iff.mp (eq_of_mem_single hm)
    cases he
    exact TicketPc.queues_of_phase hph
  | stop q =>
    rw [hp] at hm
    exact StopPc.queues_of_holdings hm
  | spawn q k =>
    rw [hp] at hm
    cases k with
    | submit i =>
      have := Multiset.mem_singleton.mp hm
      cases this
    | prestart => exact absurd hm (Multiset.notMem_zero _)
  | cancel q k =>
    rw [hp] at hm
    rcases Multiset.mem_cons.mp hm with he | hm
    · cases q <;> cases he
    · have := Book.entered_phase hm
      cases this
  | _ =>
    rw [hp] at hm
    exact absurd hm (Multiset.notMem_zero _)

theorem stored_queued : Book.sum .queued (stored sh) = sh.globalQueue.length := by
  have hq : ∀ q : List JobId, Book.sum .queued ((q.map fun j => (j, Phase.queued) : List (JobId × Phase)) : Book) =
      q.length := by
    intro q
    induction q with
    | nil => rfl
    | cons i q ih =>
      rw [Book.sum] at ih ⊢
      rw [List.map_cons, ← Multiset.cons_coe, total_cons, ih, List.length_cons, Nat.add_comm]
      rfl
  have hf : Book.sum .queued ((sh.finished.map fun e => (e.1, e.2.phase) : List (JobId × Phase)) : Book) = 0 := by
    refine total_eq_zero_iff.mpr fun e he => ?_
    obtain ⟨⟨i, ending⟩, -, rfl⟩ := List.mem_map.mp (Multiset.mem_coe.mp he)
    cases ending <;> rfl
  have hs := total_add (fun e : JobId × Phase => Phase.weight .queued e.2)
    ((sh.globalQueue.map fun j => (j, Phase.queued) : List (JobId × Phase)) : Book)
    ((sh.finished.map fun e => (e.1, e.2.phase) : List (JobId × Phase)) : Book)
  exact hs.trans (by rw [← Book.sum, ← Book.sum, hq, hf, Nat.add_zero])

/-- While nobody holds the queue lock the counter is the length of the queue. -/
theorem Consistent.queued_length (inv : Consistent False False sh ps) (hl : sh.queueLocked = false) :
    sh.acct.queuedCount = sh.globalQueue.length := by
  have hheld : Book.sum .queued (ps.bind Pc.holdings) = 0 := by
    refine total_eq_zero_iff.mpr fun e he => ?_
    obtain ⟨p, hp, hm⟩ := Multiset.mem_bind.mp he
    obtain ⟨rest, rfl⟩ := Multiset.exists_cons_of_mem hp
    obtain ⟨i, ph⟩ := e
    cases ph with
    | queued => exact absurd (inv.gauged.queueLocked (Pc.queues_of_queued hm)) (by simp [hl])
    | _ => rfl
  have hc := inv.recorded.law.counts .queued
  have hsum := total_add (fun e : JobId × Phase => Phase.weight .queued e.2) (stored sh) (ps.bind Pc.holdings)
  have hcount : sh.acct.count .queued = Book.sum .queued (stored sh) + Book.sum .queued (ps.bind Pc.holdings) :=
    hc.trans hsum
  rw [hheld, stored_queued] at hcount
  exact hcount

/-- Until it has given its job away, a submitter holds it. -/
theorem Pc.holds_of_stage (hp : p.call = some (.submit j)) (hs : p.stage ≠ .given) :
    ∃ ph, (j, ph) ∈ p.holdings := by
  have key : ∃ ph, (j, ph) ∈ p.home.direct 0 := by
    unfold Pc.call at hp
    unfold Pc.stage at hs
    cases hh : p.home with
    | submit i q =>
      rw [hh] at hp hs
      cases hp
      cases hq : q.phase with
      | some ph => exact ⟨ph, by simp [Pc.direct, Book.single, hq]⟩
      | none =>
        refine absurd ?_ hs
        cases q with
        | leave result | departGate result | departWaiters result | returned result =>
          cases result with
          | none => rfl
          | some error => cases hq
        | _ => first | rfl | cases hq
    | spawn q k =>
      rw [hh] at hp
      cases k with
      | submit i =>
        cases hp
        exact ⟨.offered, Multiset.mem_singleton_self _⟩
      | prestart => cases hp
    | cancel q k =>
      rw [hh] at hp
      cases k with
      | submitter i =>
        cases hp
        exact ⟨q.phase, Multiset.mem_cons_self (j, q.phase) 0⟩
      | _ => cases hp
    | _ =>
      rw [hh] at hp
      cases hp
  exact key

section
variable {config : ThreadPoolConfig} {tickets : JobId → Bool} {t : State Shared Pc}

theorem listed_of_run (h : machine.Run Machine.free (init config tickets) t) : Listed t.shared := by
  refine invariant_along (J := fun sh _ => Listed sh) .refl ?_ ?_ h ?_
  · intro sh p rest c sh' p' inv hl _ hm
    exact hl.step (step_queue inv.recorded.linked hm) (step_work hm)
  · intro sh ps op sh' p _ hl hm j hj
    have he : (sh'.jobs j).entry = (sh.jobs j).entry := invoke_job (g := Job.entry) (fun _ _ => rfl) hm j
    rw [invoke_same hm]
    exact hl j (he ▸ hj)
  · intro j hj
    have he : ((init config tickets).shared.jobs j).entry = if tickets j then some .prepared else none := rfl
    rw [he] at hj
    split at hj <;> cases hj

/-- A finished job has left the queue for good, and its submitter has given it away. -/
theorem finished_entry (h : machine.Run Machine.free (init config tickets) t) {e : Ending}
    (he : (j, e) ∈ t.shared.finished) :
    (t.shared.jobs j).entry = some .taken ∨ (t.shared.jobs j).entry = some .cancelled := by
  have inv := Consistent.of_free_run h
  have law := inv.recorded.law
  have hstored : (j, e.phase) ∈ stored t.shared :=
    Multiset.mem_add.mpr (Or.inr (Multiset.mem_coe.mpr (List.mem_map.mpr ⟨_, he, rfl⟩)))
  have hunheld : ∀ p ∈ t.actors, ∀ ph, (j, ph) ∉ p.holdings := by
    intro p hp ph hm
    obtain ⟨held, hheld⟩ := Multiset.exists_cons_of_mem
      (Multiset.mem_bind.mpr ⟨p, Multiset.mem_coe.mpr hp, hm⟩)
    have hl := law
    rw [hheld, Multiset.add_cons] at hl
    exact hl.not_mem_rest (Multiset.mem_add.mpr (Or.inl hstored)) rfl
  have hout : j ∉ t.shared.globalQueue := by
    intro hm
    have hq : (j, Phase.queued) ∈ stored t.shared + (t.actors : Multiset Pc).bind Pc.holdings :=
      Multiset.mem_add.mpr (Or.inl (Book.mem_stored hm))
    have := law.eq_of_mem hq (Multiset.mem_add.mpr (Or.inl hstored))
    cases e <;> cases this
  have hoff : t.shared.offered j = true := by
    by_contra ho
    have hz := law.owned j
    rw [if_neg ho] at hz
    have hpos : 0 < ((stored t.shared + (t.actors : Multiset Pc).bind Pc.holdings).map Prod.fst).count j :=
      Multiset.count_pos.mpr (Multiset.mem_map.mpr ⟨_, Multiset.mem_add.mpr (Or.inl hstored), rfl⟩)
    omega
  have hone := one_submitter h j
  rw [hoff] at hone
  obtain ⟨q, hq, hqj⟩ := total_pos_iff.mp (hone.symm ▸ Nat.one_pos : 0 < total (Pc.submits j) t.actors)
  have hcall : q.call = some (.submit j) := by
    by_contra hc
    simp [Pc.submits, hc] at hqj
  have hgiven : q.stage = .given := by
    by_contra hs
    obtain ⟨ph, hm⟩ := Pc.holds_of_stage hcall hs
    exact hunheld q (Multiset.mem_coe.mp hq) ph hm
  have hfits := ((Ticketed.of_run h j).fits q hq hcall).1
  rw [hgiven] at hfits
  rcases hfits with hf | hf | hf
  · exact absurd (listed_of_run h j hf) hout
  · exact .inl hf
  · exact .inr hf

/-- The representation of the removable FIFO, in one state and across the steps from it. -/
structure RemovableFifo (t : State Shared Pc) : Prop where
  nodup : t.shared.globalQueue.Nodup
  linked : ∀ j, j ∈ t.shared.globalQueue ↔ (t.shared.jobs j).entry = some .queued
  length : t.shared.queueLocked = false → t.shared.globalQueue.length = t.shared.acct.queuedCount
  taken : ∀ j ∈ t.shared.globalQueue, ∀ q, ({ t.shared with globalQueue := q }).takeQueued j ≠ none
  handed : ∀ u, machine.Follows Machine.free t u → ∀ j ∈ t.shared.globalQueue, j ∉ u.shared.globalQueue →
    (u.shared.jobs j).entry = some .taken ∧ ∃ p ∈ u.actors, (j, .queued) ∈ p.holdings
  moves : ∀ u, machine.Follows Machine.free t u → ∀ j, (u.shared.jobs j).entry = (t.shared.jobs j).entry ∨
    EntryMove (t.shared.jobs j).entry (u.shared.jobs j).entry
  finished : ∀ j e, (j, e) ∈ t.shared.finished →
    (t.shared.jobs j).entry = some .taken ∨ (t.shared.jobs j).entry = some .cancelled
  rejected : ∀ j error, .submit j (.returned (some error)) ∈ t.actors →
    (t.shared.jobs j).entry ∈ [none, some .prepared, some .rejected]

theorem queue_nodup (inv : Consistent False False sh ps) : sh.globalQueue.Nodup := by
  have hn := inv.recorded.law.nodup
  have hle : (sh.globalQueue : Multiset JobId) ≤ (stored sh + ps.bind Pc.holdings).map Prod.fst := by
    have hq : ((sh.globalQueue.map fun j => (j, Phase.queued) : List (JobId × Phase)) : Book).map Prod.fst =
        (sh.globalQueue : Multiset JobId) := by
      simp [Function.comp_def]
    rw [← hq]
    exact Multiset.map_le_map (le_trans (Multiset.le_add_right _ _) (Multiset.le_add_right _ _))
  exact Multiset.coe_nodup.mp (Multiset.nodup_of_le hle hn)

/-- Who removes a job from the queue holds it, and its entry is taken. -/
theorem QueueStep.handed {es : List (Fifo.Event JobId)} (h : QueueStep sh p sh' p' es) (hj : j ∈ sh.globalQueue)
    (hn : j ∉ sh'.globalQueue) : (sh'.jobs j).entry = some .taken ∧ (j, .queued) ∈ p'.holdings := by
  cases h with
  | still hq => exact absurd (hq ▸ hj) hn
  | push _ hq _ => exact absurd (hq ▸ List.mem_append_left _ hj) hn
  | pop hq he hp =>
    rw [hq] at hj
    rcases List.mem_cons.mp hj with rfl | hj
    · rw [hp]
      exact ⟨he, Multiset.mem_cons_self (j, Phase.queued) 0⟩
    · exact absurd hj hn
  | @remove i _ hq he ho =>
    by_cases hij : j = i
    · subst hij
      exact ⟨he, ho⟩
    · rw [hq] at hn
      exact absurd ((List.mem_erase_of_ne hij).mpr hj) hn

theorem removable_fifo (h : machine.Run Machine.free (init config tickets) t) : RemovableFifo t := by
  have inv := Consistent.of_free_run h
  refine ⟨queue_nodup inv, fun j => ⟨inv.recorded.linked j, listed_of_run h j⟩, ?_, ?_, ?_, ?_, ?_, ?_⟩
  · exact fun hl => (inv.queued_length hl).symm
  · intro j hj q
    rw [takeQueued_linked inv.recorded.linked hj]
    exact nofun
  · intro u hu j hj hn
    cases hu with
    | @act i c p r hp hs hok =>
      obtain ⟨r, hr, he⟩ := Option.map_eq_some_iff.mp hs
      cases he
      obtain ⟨hi, -⟩ := List.getElem?_eq_some_iff.mp hp
      obtain ⟨htaken, hheld⟩ := (step_queue inv.recorded.linked hr).handed hj hn
      exact ⟨htaken, _, List.mem_append_left _ (List.mem_set hi _), hheld⟩
    | @call op r hc =>
      rw [invoke_same hc] at hn
      exact absurd hj hn
  · intro u hu j
    cases hu with
    | @act i c p r hp hs hok =>
      obtain ⟨r, hr, he⟩ := Option.map_eq_some_iff.mp hs
      cases he
      refine ((step_work hr).entry j).imp_right fun he => he.move rfl fun hc => ?_
      exact ((Ticketed.of_run h j).fits p (Multiset.mem_coe.mpr (List.mem_of_getElem? hp)) hc).1
    | @call op r hc => exact .inl (invoke_job (g := Job.entry) (fun _ _ => rfl) hc j)
  · exact fun j e he => finished_entry h he
  · intro j error hm
    have hfits := ((Ticketed.of_run h j).fits _ (Multiset.mem_coe.mpr hm) rfl).1
    cases error with
    | rejected error =>
      have he : (t.shared.jobs j).entry = if (t.shared.jobs j).ticketed then some .prepared else none := hfits
      rw [he]
      split <;> simp
    | acceptancePanicked =>
      have he : (t.shared.jobs j).entry = if (t.shared.jobs j).ticketed then some .rejected else none := hfits
      rw [he]
      split <;> simp

/-- A job is published at most once: its entry never leaves the two states behind the
publication. -/
theorem EntryMove.published {e e' : Option QueuedJobState} (h : EntryMove e e')
    (he : e = some .queued ∨ e = some .taken) : e' = some .queued ∨ e' = some .taken := by
  rcases he with rfl | rfl
  · cases h
    exact .inr rfl
  · cases h

/-- What a log of the queue says of the state at its end. -/
structure QueueLog (sh : Shared) (log : List (Fifo.Event JobId)) : Prop where
  replayed : Fifo.replay [] log = some sh.globalQueue
  nodup : (Fifo.pushes log).Nodup
  published : ∀ j ∈ Fifo.pushes log, (sh.jobs j).entry = some .queued ∨ (sh.jobs j).entry = some .taken

theorem QueueLog.step {log : List (Fifo.Event JobId)} (hq : QueueLog sh log)
    (hs : QueueStep sh p sh' p' (queueEvents sh p)) (w : Work sh p sh' p')
    (hstage : ∀ j, p.call = some (.submit j) → p.stage.Admits (sh.jobs j)) :
    QueueLog sh' (log ++ queueEvents sh p) := by
  have hreplay : Fifo.replay [] (log ++ queueEvents sh p) = some sh'.globalQueue := by
    rw [Fifo.replay_append, hq.replayed]
    exact hs.replay
  have hold : ∀ j ∈ Fifo.pushes log, (sh'.jobs j).entry = some .queued ∨ (sh'.jobs j).entry = some .taken := by
    intro j hj
    rcases w.entry j with he | he
    · rw [he]
      exact hq.published j hj
    · exact (he.move rfl (hstage j)).published (hq.published j hj)
  generalize queueEvents sh p = es at hs hreplay
  cases hs with
  | @push j hp _ he =>
    have hfresh : j ∉ Fifo.pushes log := by
      intro hj
      have ha := hstage j (by rw [hp]; rfl)
      rw [hp] at ha
      simp only [Pc.stage, Pc.home, Pc.directStage, SubmitPc.stage, Stage.Admits] at ha
      have hpub := hq.published j hj
      split at ha
      · obtain ⟨b, hb⟩ := ha
        rw [hb] at hpub
        rcases hpub with hpub | hpub <;> cases hpub
      · rw [ha] at hpub
        rcases hpub with hpub | hpub <;> cases hpub
    have hpush : Fifo.pushes (log ++ [Fifo.Event.push j]) = Fifo.pushes log ++ [j] := Fifo.pushes_append _ _
    refine ⟨hreplay, ?_, ?_⟩
    · rw [hpush]
      exact hq.nodup.append (List.nodup_singleton j) (List.disjoint_singleton.mpr hfresh)
    · intro i hi
      rw [hpush] at hi
      rcases List.mem_append.mp hi with hi | hi
      · exact hold i hi
      · rw [List.mem_singleton.mp hi]
        exact .inl he
  | still _ =>
    rw [List.append_nil] at hreplay ⊢
    exact ⟨hreplay, hq.nodup, hold⟩
  | pop _ _ _ | remove _ _ _ _ =>
    refine ⟨hreplay, ?_, ?_⟩
    all_goals rw [Fifo.pushes_append, show Fifo.pushes [_] = [] from rfl, List.append_nil]
    · exact hq.nodup
    · exact hold

theorem queueLog_of_run {log : List (Fifo.Event JobId)}
    (h : machine.Logged Machine.free queueEvents (init config tickets) t log) : QueueLog t.shared log := by
  refine h.along ?_ ?_ ⟨rfl, List.nodup_nil, nofun⟩
  · intro u p c r es hu hp hs hq
    obtain ⟨r, hr, he⟩ := Option.map_eq_some_iff.mp hs
    cases he
    refine hq.step (step_queue (Consistent.of_free_run hu).recorded.linked hr) (step_work hr) fun j hc => ?_
    exact ((Ticketed.of_run hu j).fits p (Multiset.mem_coe.mpr hp) hc).1
  · intro u op r es _ hc hq
    have he : ∀ j, (r.1.jobs j).entry = (u.shared.jobs j).entry := invoke_job (g := Job.entry) (fun _ _ => rfl) hc
    have hqueue : r.1.globalQueue = u.shared.globalQueue := by rw [invoke_same hc]
    refine ⟨?_, hq.nodup, fun j hj => ?_⟩
    · rw [hqueue]
      exact hq.replayed
    · rw [he j]
      exact hq.published j hj

/-- First in, first out, whatever is cancelled in between: in every log of the run the
claimed jobs followed by the queued ones are the published ones in their order without
the removed ones, and a ticket takes its own job out of the queue and no other. -/
theorem queue_in_order (h : machine.Run Machine.free (init config tickets) t) :
    (∃ log, machine.Logged Machine.free queueEvents (init config tickets) t log) ∧
      (∀ log, machine.Logged Machine.free queueEvents (init config tickets) t log →
        Fifo.pops log ++ t.shared.globalQueue = (Fifo.pushes log).filter (fun j => j ∉ Fifo.removals log) ∧
          (Fifo.pushes log).Nodup ∧
          (Fifo.pushes log).Perm (Fifo.pops log ++ (Fifo.removals log ++ t.shared.globalQueue))) ∧
      ∀ j c r, machine.step t.shared (.ticket j .remove) c = some r →
        r.1.globalQueue = t.shared.globalQueue.filter fun i => i ≠ j := by
  refine ⟨h.exists_log queueEvents, fun log hlog => ?_, fun j c r hr => ?_⟩
  · have hq := queueLog_of_run hlog
    exact ⟨Fifo.replay_order hq.replayed hq.nodup, hq.nodup, Fifo.replay_perm hq.replayed⟩
  · obtain ⟨r, hstep, he⟩ := Option.map_eq_some_iff.mp hr
    cases he
    have inv := Consistent.of_free_run h
    have hn := queue_nodup inv
    have hs := step_queue inv.recorded.linked hstep
    simp only [queueEvents] at hs
    split at hs
    · cases hs with
      | remove _ hq _ _ =>
        rw [hq, hn.erase_eq_filter]
        exact List.filter_congr fun i _ => by by_cases hi : i = j <;> simp [hi]
    · rename_i hm
      cases hs with
      | still hq =>
        rw [hq]
        refine (List.filter_eq_self.mpr fun i hi => ?_).symm
        simp only [decide_eq_true_eq]
        rintro rfl
        exact hm hi

end

/-- Three jobs are published, the ticket of job 1 removes its entry and the worker claims
job 0. -/
def removalSchedule : List (Move Outcome Op) :=
  call (Op.submit 0 0) :: turns 0 19 Outcome.ok ++ call (Op.submit 1 0) :: turns 2 17 Outcome.ok ++
    call (Op.submit 2 0) :: turns 3 17 Outcome.ok ++
    call (Op.cancelQueued 1 0) :: (turns 4 6 Outcome.ok ++ turns 1 4 Outcome.ok)

theorem removal_run : ∃ t, machine.Run Machine.free (init soleWorker fun j => j == 1) t ∧
    t.shared.globalQueue = [2] := by
  have hexec : (machine.exec Machine.free (init soleWorker fun j => j == 1) removalSchedule).map
      (fun t => t.shared.globalQueue) = some [2] := by
    decide
  exact machine.exec_reaches hexec

theorem removable_fifo_removal : ∃ t, machine.Run Machine.free (init soleWorker fun j => j == 1) t ∧
    t.shared.globalQueue = [2] ∧ RemovableFifo t := by
  obtain ⟨t, hrun, hq⟩ := removal_run
  exact ⟨t, hrun, hq, removable_fifo hrun⟩

theorem queue_in_order_removal : ∃ t, machine.Run Machine.free (init soleWorker fun j => j == 1) t ∧
    t.shared.globalQueue = [2] ∧
      ∃ log, Fifo.pops log ++ [2] = (Fifo.pushes log).filter fun j => j ∉ Fifo.removals log := by
  obtain ⟨t, hrun, hq⟩ := removal_run
  obtain ⟨⟨log, hlog⟩, horder, -⟩ := queue_in_order hrun
  exact ⟨t, hrun, hq, log, hq ▸ (horder log hlog).1⟩

end ThreadPools.Dynamic
