import ThreadPools.Dynamic.Backpressure
import ThreadPools.Fixed.Backpressure

/-! # Bounded backpressure of both pools -/
namespace ThreadPools
open Interleaving
open Move (call)

namespace Dynamic

/-- A job is marked by the reservation that comes with its worker and by nothing else. -/
theorem Consistent.marks {sh sh' : Shared} {p p' : Pc} {ps : Multiset Pc} {c : Outcome}
    (inv : Consistent False False sh ps) (h : step sh c p = some (sh', p')) (j : JobId) :
    (sh'.jobs j).handoff = (sh.jobs j).handoff ∨ p = .submit j .handoff ∧ (sh'.jobs j).handoff = true := by
  refine (step_handoff inv.recorded.linked h j).imp_right fun he => ?_
  subst he
  cases h
  exact ⟨rfl, by simp⟩

/-- A job holds its slot through the bounded counter or through its worker. -/
theorem Consistent.slot_count {sh : Shared} {ps : Multiset Pc} (inv : Consistent False False sh ps) :
    sh.acct.count .queueSlot = slotHolders sh ps false + slotHolders sh ps true := by
  rw [← slots_eq_card, ← slots_eq_card, slots_split]
  exact inv.recorded.law.counts .queueSlot

def oneSlot : ThreadPoolConfig where
  corePoolSize := 1
  maximumPoolSize := 2
  queueCapacity := some 1
  keepAlive := 1
  allowCoreThreadTimeout := false
  maximumPoolSize_pos := Nat.two_pos
  corePoolSize_le := Nat.two_pos
  queueCapacity_pos := oneSlot_pos
  keepAlive_pos := Nat.one_pos

end Dynamic

namespace Fixed

def oneSlot : FixedThreadPoolConfig where
  poolSize := 1
  queueCapacity := some 1
  poolSize_pos := Nat.one_pos
  queueCapacity_pos := oneSlot_pos

end Fixed

/-- In the fixed pool the queue slots stay within the capacity. In the dynamic pool those
that were admitted through the capacity do, and the others came with a worker. -/
theorem slots_within_capacity :
    (∀ config tickets (t : State Dynamic.Shared Dynamic.Pc),
      Dynamic.machine.Run Machine.free (Dynamic.init config tickets) t →
        t.shared.acct.count .queueSlot =
            Dynamic.slotHolders t.shared t.actors false + Dynamic.slotHolders t.shared t.actors true ∧
          (∀ capacity, config.queueCapacity = some capacity →
            Dynamic.slotHolders t.shared t.actors false ≤ capacity) ∧
          ∀ p c sh' p', Dynamic.step t.shared c p = some (sh', p') → ∀ j,
            (sh'.jobs j).handoff = (t.shared.jobs j).handoff ∨
              p = .submit j .handoff ∧ (sh'.jobs j).handoff = true) ∧
    ∀ config (t : State Fixed.Shared Fixed.Pc), Fixed.machine.Run Machine.free (Fixed.init config) t →
      t.shared.acct.count .queueSlot = Fixed.slotHolders t.shared t.actors ∧
        ∀ capacity, config.queueCapacity = some capacity → t.shared.acct.count .queueSlot ≤ capacity := by
  constructor
  · intro config tickets t hrun
    have inv := Dynamic.Consistent.of_free_run hrun
    refine ⟨inv.slot_count, fun capacity hc => ?_, fun p c sh' p' h j => inv.marks h j⟩
    have hw := Dynamic.within_of_run hrun capacity ((Dynamic.sized_of_run hrun).capacity.trans hc)
    rw [← Dynamic.slots_eq_card]
    refine Nat.le_trans (Dynamic.slots_le (fun j hj => ?_) _) hw
    simpa [Dynamic.Shared.bounded] using hj
  · intro config t hrun
    have inv := Fixed.Consistent.of_free_run hrun
    refine ⟨?_, fun capacity hc => (Fixed.within_of_run hrun).slots capacity hc⟩
    exact (inv.recorded.counts .queueSlot).trans (total_eq_card fun e => Phase.weight_le_one _ _)

/-- A dynamic pool of capacity 1 with two slots, one of them handed over with the second
worker, and a full fixed pool. -/
theorem slots_within_capacity_full :
    (∃ t, Dynamic.machine.Run Machine.free (Dynamic.init Dynamic.oneSlot fun _ => false) t ∧
      t.shared.acct.count .queueSlot = 2 ∧ Dynamic.slotHolders t.shared t.actors false ≤ 1 ∧
      1 ≤ Dynamic.slotHolders t.shared t.actors true) ∧
    ∃ t, Fixed.machine.Run Machine.free (Fixed.init Fixed.oneSlot) t ∧
      Fixed.slotHolders t.shared t.actors = 1 ∧ t.shared.acct.count .queueSlot ≤ 1 := by
  constructor
  · have hexec : (Dynamic.machine.exec Machine.free (Dynamic.init Dynamic.oneSlot fun _ => false)
        (call (Dynamic.Op.submit 0 0) :: (turns 0 19 Outcome.ok ++ turns 1 7 Outcome.ok) ++
          call (Dynamic.Op.submit 1 0) :: (turns 2 5 Outcome.ok ++
            call (Dynamic.Op.submit 2 0) :: turns 3 7 Outcome.ok))).map
        (fun t => t.shared.acct.count .queueSlot) = some 2 := by
      decide
    obtain ⟨t, hrun, ht⟩ := Dynamic.machine.exec_reaches hexec
    obtain ⟨hc, hb, -⟩ := slots_within_capacity.1 _ _ t hrun
    have hle := hb 1 rfl
    exact ⟨t, hrun, ht, hle, by omega⟩
  · have hexec : (Fixed.machine.exec Machine.free (Fixed.init Fixed.oneSlot)
        (call (Fixed.Op.submit 0) :: turns 1 2 Outcome.ok)).map
          (fun t => t.shared.acct.count .queueSlot) = some 1 := by
      decide
    obtain ⟨t, hrun, ht⟩ := Fixed.machine.exec_reaches hexec
    obtain ⟨hc, hb⟩ := slots_within_capacity.2 _ t hrun
    exact ⟨t, hrun, hc.symm.trans ht, hb 1 rfl⟩

end ThreadPools
