import ThreadPools.Interleaving.Machine

/-! # Waiting for a condition that is announced by broadcasts

A waiter checks its condition under a monitor, parks and remembers the number of
broadcasts so far. Whoever changes what the condition depends on broadcasts later.
No waiter misses its condition if, whenever a waiter of the current broadcast number
is parked or about to park while the condition holds, some actor still owes a
broadcast.
-/
namespace ThreadPools.Interleaving
variable {S P : Type}

/-- One kind of waiter: its condition, the stamp of a parked one, the control points that are
about to park and those that owe a broadcast for the condition. -/
structure Waiting (S P : Type) where
  epoch : S → ℕ
  holds : S → Prop
  stamp : P → Option ℕ
  parking : P → Prop
  owes : P → Prop

namespace Waiting
variable (W : Waiting S P) {sh sh' : S} {p p' : P} {rest new : Multiset P}

def Sleeps (sh : S) (p : P) : Prop := W.parking p ∨ W.stamp p = some (W.epoch sh)

/-- Stamps are broadcast numbers of the past, and no sleeper is forgotten. -/
structure Heard (sh : S) (ps : Multiset P) : Prop where
  stamped : ∀ p ∈ ps, ∀ e, W.stamp p = some e → e ≤ W.epoch sh
  owed : W.holds sh → (∃ p ∈ ps, W.Sleeps sh p) → ∃ q ∈ ps, W.owes q

def Clears (sh sh' : S) (rest : Multiset P) : Prop := W.epoch sh < W.epoch sh' ∧ ∀ q ∈ rest, ¬ W.parking q

/-- What a step has to do for the waiters: a condition that becomes true is owed or announced,
an owed broadcast stays owed or happens, and nobody parks under a true condition. -/
structure Serves (sh : S) (p : P) (rest : Multiset P) (sh' : S) (p' : P) : Prop where
  epoch : W.epoch sh ≤ W.epoch sh'
  fresh : ∀ e, W.stamp p' = some e → e ≤ W.epoch sh'
  turns : W.holds sh' → W.holds sh ∨ W.owes p' ∨ W.Clears sh sh' rest
  keeps : W.holds sh → W.owes p → (∃ q ∈ rest, W.Sleeps sh q) → W.owes p' ∨ W.Clears sh sh' rest
  parks : W.Sleeps sh' p' → W.holds sh' → W.holds sh ∧ W.parking p ∧ ¬ W.owes p

theorem Heard.start : W.Heard sh 0 :=
  ⟨fun p hp => absurd hp (Multiset.notMem_zero p), fun _ ⟨p, hp, _⟩ => absurd hp (Multiset.notMem_zero p)⟩

theorem Heard.step (h : W.Heard sh (p ::ₘ rest)) (serves : W.Serves sh p rest sh' p')
    (hnew : ∀ q ∈ new, W.stamp q = none ∧ ¬ W.parking q) : W.Heard sh' (p' ::ₘ (new + rest)) := by
  have hstamp : ∀ s ∈ rest, ∀ e, W.stamp s = some e → e ≤ W.epoch sh := fun s hs =>
    h.stamped s (Multiset.mem_cons_of_mem hs)
  refine ⟨fun s hs e he => ?_, ?_⟩
  · rcases Multiset.mem_cons.mp hs with rfl | hs
    · exact serves.fresh e he
    · rcases Multiset.mem_add.mp hs with hs | hs
      · rw [(hnew s hs).1] at he
        cases he
      · exact Nat.le_trans (hstamp s hs e he) serves.epoch
  rintro hold ⟨s, hs, hsleep⟩
  have old : ∀ q ∈ rest, W.owes q → ∃ q ∈ p' ::ₘ (new + rest), W.owes q := fun q hq ho =>
    ⟨q, Multiset.mem_cons_of_mem (Multiset.mem_add.mpr (Or.inr hq)), ho⟩
  rcases Multiset.mem_cons.mp hs with rfl | hs
  · obtain ⟨hold, hpark, howes⟩ := serves.parks hsleep hold
    obtain ⟨q, hq, ho⟩ := h.owed hold ⟨p, Multiset.mem_cons_self p rest, Or.inl hpark⟩
    rcases Multiset.mem_cons.mp hq with rfl | hq
    · exact absurd ho howes
    · exact old q hq ho
  · rcases Multiset.mem_add.mp hs with hs | hs
    · rcases hsleep with hpark | he
      · exact absurd hpark (hnew s hs).2
      · rw [(hnew s hs).1] at he
        cases he
    -- A waiter that still sleeps slept before, and no broadcast has reached it.
    have hprev : W.Sleeps sh s := by
      refine hsleep.imp_right fun he => ?_
      rw [he, Nat.le_antisymm (hstamp s hs _ he) serves.epoch]
    have hclear : ¬ W.Clears sh sh' rest := by
      rintro ⟨hlt, hnone⟩
      rcases hsleep with hpark | he
      · exact hnone s hs hpark
      · have := hstamp s hs _ he
        omega
    have done : W.owes p' → ∃ q ∈ p' ::ₘ (new + rest), W.owes q := fun ho =>
      ⟨p', Multiset.mem_cons_self _ _, ho⟩
    rcases serves.turns hold with hold | ho | hc
    · obtain ⟨q, hq, ho⟩ := h.owed hold ⟨s, Multiset.mem_cons_of_mem hs, hprev⟩
      rcases Multiset.mem_cons.mp hq with rfl | hq
      · exact (serves.keeps hold ho ⟨s, hs, hprev⟩).elim done fun hc => absurd hc hclear
      · exact old q hq ho
    · exact done ho
    · exact absurd hc hclear

/-- When nobody owes a broadcast, nobody is parked over a condition that holds. -/
theorem Heard.quiet {ps : Multiset P} (h : W.Heard sh ps) (ho : ∀ q ∈ ps, ¬ W.owes q) (hold : W.holds sh)
    (hp : p ∈ ps) : W.stamp p ≠ some (W.epoch sh) := by
  intro hs
  obtain ⟨q, hq, hoq⟩ := h.owed hold ⟨p, hp, Or.inr hs⟩
  exact ho q hq hoq

/-- A new actor that does not wait and sees the same condition. -/
theorem Heard.call {ps : Multiset P} (h : W.Heard sh ps) (hold : W.holds sh' → W.holds sh)
    (he : W.epoch sh' = W.epoch sh) (hp : W.stamp p = none ∧ ¬ W.parking p) : W.Heard sh' (p ::ₘ ps) := by
  refine ⟨fun s hs e hst => ?_, ?_⟩
  · rcases Multiset.mem_cons.mp hs with rfl | hs
    · rw [hp.1] at hst
      cases hst
    · rw [he]
      exact h.stamped s hs e hst
  rintro hold' ⟨s, hs, hsleep⟩
  rcases Multiset.mem_cons.mp hs with rfl | hs
  · rcases hsleep with hpark | hst
    · exact absurd hpark hp.2
    · rw [hp.1] at hst
      cases hst
  · obtain ⟨q, hq, ho⟩ := h.owed (hold hold') ⟨s, hs, hsleep.imp_right fun h => by rw [h, he]⟩
    exact ⟨q, Multiset.mem_cons_of_mem hq, ho⟩

end Waiting

end ThreadPools.Interleaving
