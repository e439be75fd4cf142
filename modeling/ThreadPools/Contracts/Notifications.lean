import ThreadPools.Contracts.Wakeups
import ThreadPools.Dynamic.Notifications
import ThreadPools.Fixed.Notifications

/-! # Lifecycle notifications of both pools -/
namespace ThreadPools
open Interleaving
open Move (call)

namespace Dynamic

/-- A waiter of this kind has what it waits for. A worker is to leave once a shutdown or stop
call has returned and nothing is queued or in flight. -/
def Wait.due (t : State Shared Pc) : Wait → Prop
  | .quiescence => ∀ r : IdleRead, r.value t.shared.acct = 0
  | .termination => Terminated t.shared
  | .departure => t.shared.acct.inflightCount = 0
  | .orders => (.shutdown .returned ∈ t.actors ∨ ∃ report, .stop (.returned report) ∈ t.actors) ∧
      t.shared.acct.queuedCount = 0 ∧ t.shared.acct.inflightCount = 0

theorem Wait.holds_of_due {config : ThreadPoolConfig} {tickets : JobId → Bool} {t : State Shared Pc} {w : Wait}
    (h : machine.Run Machine.free (init config tickets) t) (hw : w.due t) : w.holds t.shared := by
  cases w with
  | orders =>
    obtain ⟨hret, -, hz⟩ := hw
    refine ⟨?_, hz⟩
    rcases hret with hm | ⟨report, hm⟩
    · exact (informed_of_run h _ hm).issued rfl
    · exact (informed_of_run h _ hm).issued rfl
  | _ => exact hw

end Dynamic

namespace Fixed

def Wait.due (t : State Shared Pc) : Wait → Prop
  | .quiescence => ∀ r : IdleRead, r.value t.shared.acct = 0
  | .termination => Terminated t.shared
  | .departure => t.shared.acct.inflightCount = 0
  | .orders => (.shutdown .returned ∈ t.actors ∨ ∃ report, .stop (.returned report) ∈ t.actors) ∧
      t.shared.acct.queuedCount = 0 ∧ t.shared.acct.inflightCount = 0

theorem Wait.holds_of_due {config : FixedThreadPoolConfig} {t : State Shared Pc} {w : Wait}
    (h : machine.Run Machine.free (init config) t) (hw : w.due t) : w.holds t.shared := by
  cases w with
  | orders =>
    obtain ⟨hret, -, hz⟩ := hw
    refine ⟨?_, hz⟩
    rcases hret with hm | ⟨report, hm⟩
    · exact (informed_of_run h _ hm).issued rfl
    · have hk := ((Consistent.of_free_run h).known _ (Multiset.mem_coe.mpr hm)).1 rfl
      intro hl
      simp [hl, ExecutorServiceLifecycle.rank] at hk
  | _ => exact hw

end Fixed

/-- In both pools, whoever is parked without a notification while its condition holds has
somebody who has made an update for the condition and still owes the notification. -/
theorem no_notification_lost :
    (∀ config tickets (t : State Dynamic.Shared Dynamic.Pc) (w : Dynamic.Wait) (p : Dynamic.Pc),
      Dynamic.machine.Run Machine.free (Dynamic.init config tickets) t → w.due t → p ∈ t.actors →
        w.stamp p = some t.shared.epoch → ∃ q ∈ t.actors, q.owes w = true) ∧
    ∀ config (t : State Fixed.Shared Fixed.Pc) (w : Fixed.Wait) (p : Fixed.Pc),
      Fixed.machine.Run Machine.free (Fixed.init config) t → w.due t → p ∈ t.actors →
        w.stamp p = some t.shared.epoch → ∃ q ∈ t.actors, q.owes w = true := by
  constructor
  · intro config tickets t w p h hw hp hs
    exact (Dynamic.heard_of_run h w).owed (Dynamic.Wait.holds_of_due h hw) ⟨p, Multiset.mem_coe.mpr hp, Or.inr hs⟩
  · intro config t w p h hw hp hs
    exact (Fixed.heard_of_run h w).owed (Fixed.Wait.holds_of_due h hw) ⟨p, Multiset.mem_coe.mpr hp, Or.inr hs⟩

/-- The joiner is parked and the worker has just finished the only job. -/
theorem no_notification_lost_join :
    (∃ t, Dynamic.machine.Run Machine.free (Dynamic.init Dynamic.soleWorker fun _ => false) t ∧
      .join (.parked t.shared.epoch) ∈ t.actors ∧ Dynamic.Wait.quiescence.due t ∧
      ∃ q ∈ t.actors, q.owes .quiescence = true) ∧
    ∃ t, Fixed.machine.Run Machine.free (Fixed.init Fixed.soleWorker) t ∧
      .join (.parked t.shared.epoch) ∈ t.actors ∧ Fixed.Wait.quiescence.due t ∧
      ∃ q ∈ t.actors, q.owes .quiescence = true := by
  have hdue : ∀ {a : PoolAccounting}, (a.inflightCount, a.count .queueSlot, a.count .running,
      a.count .cancelling) = (0, 0, 0, 0) → ∀ r : IdleRead, r.value a = 0 := by
    intro a h r
    simp only [Prod.mk.injEq] at h
    cases r
    · exact h.1
    · exact h.2.1
    · exact h.2.2.1
    · exact h.2.2.2
  constructor
  · have hexec : (Dynamic.machine.exec Machine.free (Dynamic.init Dynamic.soleWorker fun _ => false)
        (call (Dynamic.Op.submit 0 0) :: (turns 0 19 Outcome.ok ++ turns 1 10 Outcome.ok) ++
          call Dynamic.Op.join :: turns 2 6 Outcome.ok ++ turns 1 3 Outcome.ok)).map
        (fun t => (t.shared.epoch, t.actors[2]?, t.shared.acct.inflightCount, t.shared.acct.count .queueSlot,
          t.shared.acct.count .running, t.shared.acct.count .cancelling)) =
        some (0, some (Dynamic.Pc.join (.parked 0)), 0, 0, 0, 0) := by
      decide
    obtain ⟨t, hrun, ht⟩ := Dynamic.machine.exec_reaches hexec
    obtain ⟨he, ht⟩ := Prod.mk.inj ht
    obtain ⟨hp, hz⟩ := Prod.mk.inj ht
    have hm := List.mem_of_getElem? hp
    refine ⟨t, hrun, by rw [he]; exact hm, hdue hz, ?_⟩
    exact no_notification_lost.1 _ _ t .quiescence _ hrun (hdue hz) hm (by rw [he]; rfl)
  · have hexec : (Fixed.machine.exec Machine.free (Fixed.init Fixed.soleWorker)
        (call (Fixed.Op.submit 0) :: (turns 1 11 Outcome.ok ++ turns 0 8 Outcome.ok) ++
          call Fixed.Op.join :: turns 2 6 Outcome.ok ++ turns 0 3 Outcome.ok)).map
        (fun t => (t.shared.epoch, t.actors[2]?, t.shared.acct.inflightCount, t.shared.acct.count .queueSlot,
          t.shared.acct.count .running, t.shared.acct.count .cancelling)) =
        some (0, some (Fixed.Pc.join (.parked 0)), 0, 0, 0, 0) := by
      decide
    obtain ⟨t, hrun, ht⟩ := Fixed.machine.exec_reaches hexec
    obtain ⟨he, ht⟩ := Prod.mk.inj ht
    obtain ⟨hp, hz⟩ := Prod.mk.inj ht
    have hm := List.mem_of_getElem? hp
    refine ⟨t, hrun, by rw [he]; exact hm, hdue hz, ?_⟩
    exact no_notification_lost.2 _ t .quiescence _ hrun (hdue hz) hm (by rw [he]; rfl)

end ThreadPools
