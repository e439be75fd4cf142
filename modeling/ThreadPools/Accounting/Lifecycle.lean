import Mathlib.Data.Nat.Notation

/-! # Lifecycle values and their observation

The stored lifecycle is never `terminated`; that value is derived from a predicate
that has to be stable for the returned values to be ordered.
-/
namespace ThreadPools

inductive ExecutorServiceLifecycle where
  | running | shuttingDown | stopping | terminated
  deriving DecidableEq, Repr

def ExecutorServiceLifecycle.rank : ExecutorServiceLifecycle → ℕ
  | .running => 0
  | .shuttingDown => 1
  | .stopping => 2
  | .terminated => 3

theorem ExecutorServiceLifecycle.rank_le (l : ExecutorServiceLifecycle) : l.rank ≤ 3 := by
  cases l <;> decide

/-- The values `returned` by `lifecycle` so far, while `stored` is stored and `ended`
says that the termination predicate holds. -/
structure Observed (stored : ExecutorServiceLifecycle) (returned : List ExecutorServiceLifecycle)
    (ended : Prop) : Prop where
  underived : stored ≠ .terminated
  final : .terminated ∈ returned → ended
  bounded : ∀ l ∈ returned, l ≠ .terminated → l.rank ≤ stored.rank
  sorted : returned.Pairwise fun l l' => l.rank ≤ l'.rank

namespace Observed
variable {stored stored' : ExecutorServiceLifecycle} {returned : List ExecutorServiceLifecycle}
variable {ended ended' : Prop}

theorem start : Observed .running [] ended := ⟨nofun, nofun, nofun, .nil⟩

theorem keep (h : Observed stored returned ended) (hs : stored ≠ .terminated → stored' ≠ .terminated)
    (hr : stored.rank ≤ stored'.rank) (he : ended → ended') : Observed stored' returned ended' where
  underived := hs h.underived
  final := fun hm => he (h.final hm)
  bounded := fun l hl hne => Nat.le_trans (h.bounded l hl hne) hr
  sorted := h.sorted

theorem append_terminated (h : Observed stored returned ended) (he : ended) :
    Observed stored (returned ++ [ExecutorServiceLifecycle.terminated]) ended := by
  refine ⟨h.underived, fun _ => he, fun l hl hne => ?_, ?_⟩
  · rcases List.mem_append.mp hl with hl | hl
    · exact h.bounded l hl hne
    · exact absurd (List.mem_singleton.mp hl) hne
  · refine List.pairwise_append.mpr ⟨h.sorted, List.pairwise_singleton _ _, fun l _ l' hl' => ?_⟩
    rw [List.mem_singleton.mp hl']
    exact l.rank_le

/-- The stored value may be returned only while `terminated` has not been. -/
theorem append_stored (h : Observed stored returned ended) (hf : .terminated ∉ returned) :
    Observed stored (returned ++ [stored]) ended := by
  refine ⟨h.underived, fun hm => ?_, fun l hl hne => ?_, ?_⟩
  · rcases List.mem_append.mp hm with hm | hm
    · exact absurd hm hf
    · exact absurd (List.mem_singleton.mp hm).symm h.underived
  · rcases List.mem_append.mp hl with hl | hl
    · exact h.bounded l hl hne
    · exact Nat.le_of_eq (congrArg ExecutorServiceLifecycle.rank (List.mem_singleton.mp hl))
  · refine List.pairwise_append.mpr ⟨h.sorted, List.pairwise_singleton _ _, fun l hl l' hl' => ?_⟩
    rw [List.mem_singleton.mp hl']
    exact h.bounded l hl fun ht => hf (ht ▸ hl)

end Observed

end ThreadPools
