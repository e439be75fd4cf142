import Mathlib.Data.List.Perm.Basic
import Mathlib.Data.List.Nodup
import Mathlib.Data.List.Induction

/-! # Histories of a FIFO with removals

Elements enter at the back and leave at the front, or from wherever they stand. What
has left at the front together with what is still there is the order of entry without
the removed elements.
-/
namespace ThreadPools.Interleaving.Fifo
variable {α : Type}

inductive Event (α : Type) where
  | push (a : α) | pop (a : α) | remove (a : α)
  deriving DecidableEq

namespace Event

def pushed : Event α → Option α
  | .push a => some a
  | _ => none

def popped : Event α → Option α
  | .pop a => some a
  | _ => none

def removed : Event α → Option α
  | .remove a => some a
  | _ => none

end Event

def pushes (es : List (Event α)) : List α := es.filterMap Event.pushed
def pops (es : List (Event α)) : List α := es.filterMap Event.popped
def removals (es : List (Event α)) : List α := es.filterMap Event.removed

section
variable (es : List (Event α)) (a : α)

theorem pushes_append (fs : List (Event α)) : pushes (es ++ fs) = pushes es ++ pushes fs := List.filterMap_append
theorem pops_append (fs : List (Event α)) : pops (es ++ fs) = pops es ++ pops fs := List.filterMap_append
theorem removals_append (fs : List (Event α)) : removals (es ++ fs) = removals es ++ removals fs :=
  List.filterMap_append

end

variable [DecidableEq α] {q q' : List α} {e : Event α} {es fs : List (Event α)}

/-- The queue after an event, or `none` where it cannot happen. -/
def Event.next (q : List α) : Event α → Option (List α)
  | .push a => some (q ++ [a])
  | .pop a => if q.head? = some a then some q.tail else none
  | .remove a => if a ∈ q then some (q.erase a) else none

def replay (q : List α) (es : List (Event α)) : Option (List α) := es.foldlM Event.next q

theorem replay_append : replay q (es ++ fs) = (replay q es).bind fun q' => replay q' fs := List.foldlM_append

theorem next_pop {a : α} (h : (Event.pop a).next q = some q') : q = a :: q' := by
  simp only [Event.next] at h
  split at h
  · rename_i ha
    cases h
    exact (List.cons_head?_tail ha).symm
  · cases h

theorem next_remove {a : α} (h : (Event.remove a).next q = some q') : a ∈ q ∧ q' = q.erase a := by
  simp only [Event.next] at h
  split at h
  · cases h
    exact ⟨‹_›, rfl⟩
  · cases h

/-- What one event adds to the history. -/
theorem next_perm (h : e.next q = some q') :
    (q ++ pushes [e]).Perm (pops [e] ++ (removals [e] ++ q')) := by
  cases e with
  | push a =>
    cases h
    exact .refl _
  | pop a =>
    obtain rfl := next_pop h
    exact List.Perm.of_eq (List.append_nil _)
  | remove a =>
    obtain ⟨ha, rfl⟩ := next_remove h
    exact (List.Perm.of_eq (List.append_nil q)).trans (List.perm_cons_erase ha)

/-- Every element is still there or has left once for every time it entered. -/
theorem replay_perm (h : replay [] es = some q) : (pushes es).Perm (pops es ++ (removals es ++ q)) := by
  induction es using List.reverseRecOn generalizing q with
  | nil =>
    cases h
    exact .refl _
  | append_singleton es e ih =>
    rw [replay_append] at h
    obtain ⟨q₁, h₁, he⟩ := Option.bind_eq_some_iff.mp h
    have hnext : e.next q₁ = some q := by simpa [replay] using he
    have hperm := next_perm hnext
    rw [pushes_append, pops_append, removals_append]
    refine List.perm_iff_count.mpr fun a => ?_
    have hold := (ih h₁).count_eq a
    have hnew := hperm.count_eq a
    simp only [List.count_append] at hold hnew ⊢
    omega

/-- First in, first out: who leaves at the front leaves in the order of entry, and a
removal does not touch the order of the others. -/
theorem replay_order (h : replay [] es = some q) (hn : (pushes es).Nodup) :
    pops es ++ q = (pushes es).filter fun a => a ∉ removals es := by
  induction es using List.reverseRecOn generalizing q with
  | nil =>
    cases h
    rfl
  | append_singleton es e ih =>
    have hperm := replay_perm h
    rw [replay_append] at h
    obtain ⟨q₁, h₁, he⟩ := Option.bind_eq_some_iff.mp h
    have hnext : e.next q₁ = some q := by simpa [replay] using he
    rw [pushes_append] at hn
    have ih := ih h₁ hn.of_append_left
    have hperm₁ := replay_perm h₁
    rw [pushes_append, pops_append, removals_append]
    cases e with
    | push a =>
      cases hnext
      have hfresh : a ∉ removals es := by
        intro ha
        have hmem : a ∈ pushes es := hperm₁.mem_iff.mpr (List.mem_append_right _ (List.mem_append_left _ ha))
        exact (List.disjoint_of_nodup_append hn) hmem (List.mem_singleton_self a)
      have hrem : removals es ++ removals [Event.push a] = removals es := List.append_nil _
      rw [hrem, List.filter_append, ← ih]
      simp [pushes, pops, Event.pushed, Event.popped, hfresh]
    | pop a =>
      obtain rfl := next_pop hnext
      have hrem : removals es ++ removals [Event.pop a] = removals es := List.append_nil _
      have hpush : pushes es ++ pushes [Event.pop a] = pushes es := List.append_nil _
      rw [hrem, hpush, ← ih]
      simp [pops, Event.popped]
    | remove a =>
      obtain ⟨ha, rfl⟩ := next_remove hnext
      have hpush : pushes es ++ pushes [Event.remove a] = pushes es := List.append_nil _
      have hpop : pops es ++ pops [Event.remove a] = pops es := List.append_nil _
      rw [hpush, hpop]
      have hall : (pops es ++ q₁).Nodup := by
        rw [ih]
        exact hn.of_append_left.filter _
      have hout : a ∉ pops es := fun hm => List.disjoint_of_nodup_append hall hm ha
      have hsplit : (pushes es).filter (fun b => b ∉ removals es ++ removals [Event.remove a]) =
          ((pushes es).filter fun b => b ∉ removals es).filter fun b => b ≠ a := by
        rw [List.filter_filter]
        refine List.filter_congr fun b _ => ?_
        simp [removals, Event.removed, and_comm]
      rw [hsplit, ← ih, List.filter_append]
      have hpops : (pops es).filter (fun b => b ≠ a) = pops es := by
        refine List.filter_eq_self.mpr fun b hb => ?_
        simp only [decide_eq_true_eq]
        rintro rfl
        exact hout hb
      rw [hpops, hall.of_append_right.erase_eq_filter]
      exact congrArg (pops es ++ ·) (List.filter_congr fun b _ => by by_cases hb : b = a <;> simp [hb])

end ThreadPools.Interleaving.Fifo
