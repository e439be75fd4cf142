import ThreadPools.Dynamic.Workers

/-! # Exactly-once ownership in the dynamic pool -/
namespace ThreadPools.Dynamic
open Interleaving
open Move (call)

def Pc.owns (j : JobId) (p : Pc) : ℕ := Book.owners j p.holdings

/-- The owners besides the FIFO: the submitter of the job, a worker and a canceller,
which is a ticket holder, a stop call or the submitter whose job was to be cancelled. -/
def Pc.mayOwn (j : JobId) : Pc → Bool
  | .submit i _ => i == j
  | .worker _ | .ticket _ _ | .stop _ | .cancel _ _ => true
  | _ => false

theorem Pc.mayOwn_of_owns {j : JobId} {p : Pc} (h : 0 < p.owns j) : p.home.mayOwn j = true := by
  have ho : 0 < Book.owners j (p.home.direct 0) := h
  cases hp : p.home with
  | submit i q =>
    rw [hp] at ho
    obtain ⟨e, he, hpos⟩ := total_pos_iff.mp ho
    have hj : e.1 = j := by
      by_contra hne
      simp [hne] at hpos
    have hi : e.1 = i := by
      cases hq : q.phase with
      | none => simp [Pc.direct, Book.single, hq] at he
      | some ph =>
        simp only [Pc.direct, Book.single, hq, Option.map_some, Multiset.mem_cons, Multiset.notMem_zero,
          or_false] at he
        rw [he]
    exact beq_iff_eq.mpr (hi.symm.trans hj)
  | spawn q k =>
    rw [hp] at ho
    cases k with
    | submit i => simp [Pc.direct, SpawnCaller.holdings, Book.owners, Phase.outstanding, Phase.history] at ho
    | prestart => simp [Pc.direct, SpawnCaller.holdings, Book.owners] at ho
  | worker q => rfl
  | ticket i q => rfl
  | stop q => rfl
  | cancel q k => rfl
  | _ =>
    rw [hp] at ho
    simp [Pc.direct, Book.owners] at ho

section
variable {config : ThreadPoolConfig} {tickets : JobId → Bool} {t : State Shared Pc}

/-- Whatever the callbacks do and however submitters, workers, ticket holders and stop
calls interleave, each callback of a job is invoked at most once and in order, a
rejected job is neither run nor cancelled, and an unfinished accepted job has exactly
one owner. -/
theorem callbacks_exactly_once (h : machine.Run Machine.free (init config tickets) t) (j : JobId) :
    Phase.ExactlyOnce (t.shared.history j) ∧
      (∀ error, .submit j (.returned (some error)) ∈ t.actors →
        .runBegin ∉ t.shared.history j ∧ .cancelBegin ∉ t.shared.history j ∧
          (.acceptBegin ∈ t.shared.history j → error = .acceptancePanicked)) ∧
      (.acceptEnd ∈ t.shared.history j → .accounted ∉ t.shared.history j →
        t.shared.globalQueue.count j + total (Pc.owns j) t.actors = 1 ∧
          ∀ p ∈ t.actors, 0 < p.owns j → p.home.mayOwn j = true) := by
  have law := (Consistent.of_free_run h).recorded.law
  refine ⟨law.exactlyOnce j, fun error hm => ?_, fun ha hu => ⟨?_, fun p _ ho => Pc.mayOwn_of_owns ho⟩⟩
  · have he : (j, Phase.rejected error) ∈ stored t.shared + (t.actors : Multiset Pc).bind Pc.holdings := by
      refine Multiset.mem_add.mpr (Or.inr (Multiset.mem_bind.mpr ⟨_, hm, ?_⟩))
      exact Multiset.mem_cons_self (j, Phase.rejected error) 0
    rw [law.traced _ he]
    cases error <;> simp [Phase.history]
  · have ho := law.owners_eq_one ha hu
    rw [Book.owners, total_add, total_bind, ← Book.owners, stored, Book.stored_owners] at ho
    exact ho

end

/-- The worker runs job 0 while the ticket of job 1 cancels that job in the queue. -/
def raceSchedule : List (Move Outcome Op) :=
  call (Op.submit 0 0) :: turns 0 19 Outcome.ok ++ call (Op.submit 1 0) :: turns 2 17 Outcome.ok ++
    call (Op.cancelQueued 1 0) :: (turns 1 10 Outcome.ok ++ turns 3 7 Outcome.ok)

theorem callbacks_exactly_once_race : ∃ t, machine.Run Machine.free (init soleWorker fun j => j == 1) t ∧
    t.shared.history 1 = [.acceptBegin, .acceptEnd, .cancelBegin] ∧
      t.shared.globalQueue.count 1 + total (Pc.owns 1) t.actors = 1 := by
  have hexec : (machine.exec Machine.free (init soleWorker fun j => j == 1) raceSchedule).map
      (fun t => t.shared.history 1) = some [.acceptBegin, .acceptEnd, .cancelBegin] := by
    decide
  obtain ⟨t, hrun, hh⟩ := machine.exec_reaches hexec
  exact ⟨t, hrun, hh, ((callbacks_exactly_once hrun 1).2.2 (by simp [hh]) (by simp [hh])).1⟩

end ThreadPools.Dynamic
