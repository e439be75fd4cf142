import ThreadPools.Interleaving.Machine
import Mathlib.Algebra.Order.Ring.Int

/-! # What the steps of a run add up to

The contribution of an actor to a quantity along a run is the sum of what its own
steps add to it; what the others do in between is left out. The log of a run lists
the events of all its steps in order.
-/
namespace ThreadPools.Interleaving
namespace Machine
variable {S P C O : Type} (M : Machine S P C O)

/-- On a run from `s` the steps of actor `i` have added `x` to `f`. -/
inductive Tally (ok : Guard S P C) (i : ℕ) (f : S → ℤ) (s : State S P) : State S P → ℤ → Prop where
  | refl : Tally ok i f s s 0
  | own {u : State S P} {x : ℤ} {p : P} {c : C} {r : S × P × List P} (h : Tally ok i f s u x)
      (hp : u.actors[i]? = some p) (hs : M.step u.shared p c = some r) (hok : ok u.shared u.actors p c) :
      Tally ok i f s ⟨r.1, u.actors.set i r.2.1 ++ r.2.2⟩ (x + (f r.1 - f u.shared))
  | other {u : State S P} {x : ℤ} {k : ℕ} {p : P} {c : C} {r : S × P × List P} (h : Tally ok i f s u x)
      (hk : k ≠ i) (hp : u.actors[k]? = some p) (hs : M.step u.shared p c = some r)
      (hok : ok u.shared u.actors p c) : Tally ok i f s ⟨r.1, u.actors.set k r.2.1 ++ r.2.2⟩ x
  | call {u : State S P} {x : ℤ} {op : O} {r : S × P} (h : Tally ok i f s u x)
      (hc : M.call u.shared op = some r) : Tally ok i f s ⟨r.1, u.actors ++ [r.2]⟩ x

variable {M}
variable {ok : Guard S P C} {i : ℕ} {f : S → ℤ} {s t : State S P} {x : ℤ}

theorem Tally.run (h : M.Tally ok i f s t x) : M.Run ok s t := by
  induction h with
  | refl => exact .refl
  | own _ hp hs hok ih => exact ih.tail (.act hp hs hok)
  | other _ _ hp hs hok ih => exact ih.tail (.act hp hs hok)
  | call _ hc ih => exact ih.tail (.call hc)

/-- Every run has a tally. -/
theorem Run.exists_tally (h : M.Run ok s t) (i : ℕ) (f : S → ℤ) : ∃ x, M.Tally ok i f s t x := by
  induction h with
  | refl => exact ⟨0, .refl⟩
  | tail _ hf ih =>
    obtain ⟨x, hx⟩ := ih
    cases hf with
    | @act k c p r hp hs hok =>
      by_cases hk : k = i
      · subst hk
        exact ⟨_, .own hx hp hs hok⟩
      · exact ⟨x, .other hx hk hp hs hok⟩
    | call hc => exact ⟨x, .call hx hc⟩

/-- What holds of actor `i` and its tally survives its own steps and those of the others. -/
theorem Tally.tracks {K : P → ℤ → Prop} {p : P}
    (hown : ∀ u q c r x, M.Run ok s u → u.actors[i]? = some q → M.step u.shared q c = some r → K q x →
      K r.2.1 (x + (f r.1 - f u.shared)))
    (h : M.Tally ok i f s t x) (hp : s.actors[i]? = some p) (hK : K p 0) :
    ∃ q, t.actors[i]? = some q ∧ K q x := by
  induction h with
  | refl => exact ⟨p, hp, hK⟩
  | @own u x q c r hu hq hs _ ih =>
    obtain ⟨q', hq', hK⟩ := ih
    rw [hq] at hq'
    cases hq'
    obtain ⟨hi, -⟩ := List.getElem?_eq_some_iff.mp hq
    refine ⟨r.2.1, ?_, hown u q c r x hu.run hq hs hK⟩
    simp only
    rw [List.getElem?_append_left (by simpa using hi), List.getElem?_set_self hi]
  | @other u x k q c r hu hk hq hs _ ih =>
    obtain ⟨q', hq', hK⟩ := ih
    obtain ⟨hi, -⟩ := List.getElem?_eq_some_iff.mp hq'
    refine ⟨q', ?_, hK⟩
    simp only
    rw [List.getElem?_append_left (by simpa using hi), List.getElem?_set_ne hk]
    exact hq'
  | @call u x op r hu hc ih =>
    obtain ⟨q', hq', hK⟩ := ih
    obtain ⟨hi, -⟩ := List.getElem?_eq_some_iff.mp hq'
    refine ⟨q', ?_, hK⟩
    simp only
    rw [List.getElem?_append_left hi]
    exact hq'

variable (M) in
/-- A run from `s` and the log of its steps, each of which appends the events that
`note` reads off the state before it. -/
inductive Logged {E : Type} (ok : Guard S P C) (note : S → P → List E) (s : State S P) :
    State S P → List E → Prop where
  | refl : Logged ok note s s []
  | act {u : State S P} {es : List E} {k : ℕ} {p : P} {c : C} {r : S × P × List P} (h : Logged ok note s u es)
      (hp : u.actors[k]? = some p) (hs : M.step u.shared p c = some r) (hok : ok u.shared u.actors p c) :
      Logged ok note s ⟨r.1, u.actors.set k r.2.1 ++ r.2.2⟩ (es ++ note u.shared p)
  | call {u : State S P} {es : List E} {op : O} {r : S × P} (h : Logged ok note s u es)
      (hc : M.call u.shared op = some r) : Logged ok note s ⟨r.1, u.actors ++ [r.2]⟩ es

variable {E : Type} {note : S → P → List E} {es : List E}

theorem Logged.run (h : M.Logged ok note s t es) : M.Run ok s t := by
  induction h with
  | refl => exact .refl
  | act _ hp hs hok ih => exact ih.tail (.act hp hs hok)
  | call _ hc ih => exact ih.tail (.call hc)

/-- Every run has a log. -/
theorem Run.exists_log (note : S → P → List E) (h : M.Run ok s t) : ∃ es, M.Logged ok note s t es := by
  induction h with
  | refl => exact ⟨[], .refl⟩
  | tail _ hf ih =>
    obtain ⟨es, hes⟩ := ih
    cases hf with
    | act hp hs hok => exact ⟨_, .act hes hp hs hok⟩
    | call hc => exact ⟨es, .call hes hc⟩

/-- What relates the shared state and the log of a run. -/
theorem Logged.along {J : S → List E → Prop}
    (hact : ∀ u p c r es, M.Run ok s u → p ∈ u.actors → M.step u.shared p c = some r → J u.shared es →
      J r.1 (es ++ note u.shared p))
    (hcall : ∀ u op r es, M.Run ok s u → M.call u.shared op = some r → J u.shared es → J r.1 es)
    (h : M.Logged ok note s t es) (h₀ : J s.shared []) : J t.shared es := by
  induction h with
  | refl => exact h₀
  | act hu hp hs _ ih => exact hact _ _ _ _ _ hu.run (List.mem_of_getElem? hp) hs ih
  | call hu hc ih => exact hcall _ _ _ _ hu.run hc ih

end Machine

end ThreadPools.Interleaving
