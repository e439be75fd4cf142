import Mathlib.Algebra.BigOperators.Group.Multiset.Basic
import Mathlib.Algebra.Order.BigOperators.Group.Multiset
import Mathlib.Data.Multiset.Bind
import Mathlib.Tactic.Linarith

/-! # Totals over the actors of a machine

A counter that actors raise and lower is the total of what each control point
contributes to it. A lock is the case in which the total is at most one: two
control points that both hold it cannot stand in the same state.
-/
namespace ThreadPools.Interleaving
variable {P Q : Type}

def total (f : P → ℕ) (ps : Multiset P) : ℕ := (ps.map f).sum

@[simp] theorem total_zero (f : P → ℕ) : total f 0 = 0 := rfl

@[simp] theorem total_cons (f : P → ℕ) (p : P) (ps : Multiset P) :
    total f (p ::ₘ ps) = f p + total f ps := by
  simp [total]

@[simp] theorem total_add (f : P → ℕ) (ps qs : Multiset P) :
    total f (ps + qs) = total f ps + total f qs := by
  simp [total]

@[simp] theorem total_singleton (f : P → ℕ) (p : P) : total f {p} = f p := by simp [total]

@[simp] theorem total_map (f : Q → ℕ) (g : P → Q) (ps : Multiset P) :
    total f (ps.map g) = total (fun p => f (g p)) ps := by
  simp [total, Multiset.map_map]

theorem le_total {f : P → ℕ} {p : P} {ps : Multiset P} (h : p ∈ ps) : f p ≤ total f ps :=
  Multiset.single_le_sum (fun _ _ => Nat.zero_le _) _ (Multiset.mem_map_of_mem f h)

theorem total_pos_iff {f : P → ℕ} {ps : Multiset P} : 0 < total f ps ↔ ∃ p ∈ ps, 0 < f p := by
  induction ps using Multiset.induction_on with
  | empty => simp
  | cons p ps ih => simp [ih]

theorem total_toNat_pos {f : P → Bool} {ps : Multiset P} :
    0 < total (fun p => (f p).toNat) ps ↔ ∃ p ∈ ps, f p = true := by
  have hb : ∀ b : Bool, 0 < b.toNat ↔ b = true := by decide
  simp only [total_pos_iff, hb]

theorem total_eq_zero_iff {f : P → ℕ} {ps : Multiset P} : total f ps = 0 ↔ ∀ p ∈ ps, f p = 0 := by
  simp [total, Multiset.sum_eq_zero_iff]

theorem total_le_total {f g : P → ℕ} {ps : Multiset P} (h : ∀ p ∈ ps, f p ≤ g p) :
    total f ps ≤ total g ps := by
  induction ps using Multiset.induction_on with
  | empty => simp
  | cons p ps ih =>
    rw [total_cons, total_cons]
    exact Nat.add_le_add (h p (Multiset.mem_cons_self p ps))
      (ih fun q hq => h q (Multiset.mem_cons_of_mem hq))

theorem total_congr {f g : P → ℕ} {ps : Multiset P} (h : ∀ p ∈ ps, f p = g p) :
    total f ps = total g ps :=
  congrArg Multiset.sum (Multiset.map_congr rfl h)

theorem total_sum (f g : P → ℕ) (ps : Multiset P) :
    total (fun p => f p + g p) ps = total f ps + total g ps := by
  simp [total]

/-- Contributions of at most one are counted by their contributors. -/
theorem total_eq_card {f : P → ℕ} {ps : Multiset P} (h : ∀ p, f p ≤ 1) :
    total f ps = Multiset.card (ps.filter fun p => f p = 1) := by
  induction ps using Multiset.induction_on with
  | empty => rfl
  | cons p ps ih =>
    rw [total_cons, ih]
    by_cases hp : f p = 1
    · rw [Multiset.filter_cons_of_pos ps hp, Multiset.card_cons, hp, Nat.add_comm]
    · have hz : f p = 0 := by
        have := h p
        omega
      rw [Multiset.filter_cons_of_neg ps hp, hz, Nat.zero_add]

theorem count_le_total [DecidableEq P] {f : P → ℕ} {p : P} (h : 1 ≤ f p) (ps : Multiset P) :
    ps.count p ≤ total f ps := by
  induction ps using Multiset.induction_on with
  | empty => simp
  | cons q ps ih =>
    rw [Multiset.count_cons, total_cons]
    split
    · subst p
      omega
    · omega

/-- Each element of a bind is counted where it comes from. -/
theorem total_bind (f : Q → ℕ) (g : P → Multiset Q) (ps : Multiset P) :
    total f (ps.bind g) = total (fun p => total f (g p)) ps := by
  induction ps using Multiset.induction_on with
  | empty => simp
  | cons p ps ih => simp [ih]

end ThreadPools.Interleaving
