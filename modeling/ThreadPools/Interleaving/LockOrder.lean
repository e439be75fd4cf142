import ThreadPools.Interleaving.Machine

/-! # Locks that are acquired in a fixed order

A thread may have several activations: it calls one after the other, and a call that
runs foreign code is suspended in it while that code calls again. If suspended and
returned activations neither hold nor want a lock and the others want only locks above
those that they hold, the threads never wait for each other in a circle.
-/
namespace ThreadPools.Interleaving
variable {P L T : Type}

def Through (thread : ℕ → T) (ps : List P) (R : P → L → Prop) (a : T) (l : L) : Prop :=
  ∃ i p, ps[i]? = some p ∧ thread i = a ∧ R p l

/-- Of two activations of one thread at least one is inactive: suspended or over. -/
def Nested (inactive : P → Prop) (thread : ℕ → T) (ps : List P) : Prop :=
  ∀ i k p q, ps[i]? = some p → ps[k]? = some q → i ≠ k → thread i = thread k → inactive p ∨ inactive q

def WaitsFor (wants holds : T → L → Prop) (a b : T) : Prop := ∃ l, wants a l ∧ holds b l

/-- Whoever wants a lock holds only locks of a lower rank. -/
def Ascending (rank : L → ℕ) (wants holds : T → L → Prop) : Prop :=
  ∀ a l l', wants a l → holds a l' → rank l' < rank l

variable {rank : L → ℕ}

/-- Ranks do not fall along a chain of waiting threads. -/
theorem Ascending.chain {wants holds : T → L → Prop} (h : Ascending rank wants holds) {a b : T}
    (hab : Relation.TransGen (WaitsFor wants holds) a b) :
    ∃ l l', wants a l ∧ holds b l' ∧ rank l ≤ rank l' := by
  induction hab with
  | single hb =>
    obtain ⟨l, hw, hh⟩ := hb
    exact ⟨l, l, hw, hh, Nat.le_refl _⟩
  | tail _ hc ih =>
    obtain ⟨l, l', hw, hh, hle⟩ := ih
    obtain ⟨m, hwm, hhm⟩ := hc
    exact ⟨l, m, hw, hhm, hle.trans (h _ _ _ hwm hh).le⟩

theorem Ascending.acyclic {wants holds : T → L → Prop} (h : Ascending rank wants holds) (a : T) :
    ¬ Relation.TransGen (WaitsFor wants holds) a a := by
  intro hcycle
  obtain ⟨l, l', hw, hh, hle⟩ := h.chain hcycle
  have hlt := h a l l' hw hh
  omega

/-- The order of the activations is one of the threads. -/
theorem Nested.ascending {inactive : P → Prop} {thread : ℕ → T} {ps : List P} {wants holds : P → L → Prop}
    (hn : Nested inactive thread ps) (hw : ∀ p ∈ ps, inactive p → ∀ l, ¬ wants p l)
    (hh : ∀ p ∈ ps, inactive p → ∀ l, ¬ holds p l)
    (ho : ∀ p ∈ ps, ∀ l l', wants p l → holds p l' → rank l' < rank l) :
    Ascending rank (Through thread ps wants) (Through thread ps holds) := by
  rintro a l l' ⟨i, p, hp, rfl, hwl⟩ ⟨k, q, hq, hk, hhl⟩
  have hpm := List.mem_of_getElem? hp
  have hqm := List.mem_of_getElem? hq
  by_cases hik : i = k
  · subst hik
    rw [hp] at hq
    cases hq
    exact ho p hpm l l' hwl hhl
  · rcases hn i k p q hp hq hik hk.symm with hs | hs
    · exact absurd hwl (hw p hpm hs l)
    · exact absurd hhl (hh q hqm hs l')

end ThreadPools.Interleaving
