import ThreadPools.Interleaving.Machine

/-! # Systems that have come to rest

An actor is asleep when it waits for something that others have to announce; a wake-up
without an announcement is possible but nothing to rely on. A system is at rest when
nobody who is awake can move. A system that comes to rest only when its work is done has
neither a deadlock nor a lost wake-up.
-/
namespace ThreadPools.Interleaving
namespace Machine
variable {S P C O : Type} {M : Machine S P C O} {ok : Guard S P C} {asleep : S → P → Prop} {s t : State S P}

variable (M) in
def AtRest (asleep : S → P → Prop) (s : State S P) : Prop :=
  ∀ p ∈ s.actors, asleep s.shared p ∨ ∀ c, M.step s.shared p c = none

/-- Locks that are acquired in the order of their ranks are free at rest: the owner of the
highest lock that is held could move. -/
theorem AtRest.free {L : Type} {n : ℕ} (h : M.AtRest asleep s) (rank : L → ℕ) (held : L → Prop)
    (wants holds : P → L → Prop) (hn : ∀ l, rank l < n) (howned : ∀ l, held l → ∃ p ∈ s.actors, holds p l)
    (habove : ∀ p ∈ s.actors, ∀ l l', wants p l → holds p l' → rank l' < rank l)
    (hmove : ∀ p ∈ s.actors, (∃ l, holds p l) → (∀ l, wants p l → ¬ held l) →
      ¬ asleep s.shared p ∧ ∃ c r, M.step s.shared p c = some r) : ∀ l, ¬ held l := by
  suffices key : ∀ k l, n ≤ rank l + k → ¬ held l from fun l => key n l (Nat.le_add_left n _)
  intro k
  induction k with
  | zero => exact fun l hl => absurd (hn l) (Nat.not_lt.mpr hl)
  | succ k ih =>
    intro l hl hheld
    obtain ⟨p, hp, hpl⟩ := howned l hheld
    obtain ⟨hawake, c, r, hr⟩ := hmove p hp ⟨l, hpl⟩ fun l' hw => ih l' (by have := habove p hp l' l hw hpl; omega)
    rcases h p hp with ha | hstuck
    · exact hawake ha
    · rw [hstuck c] at hr
      cases hr

variable (M) in
def only (allowed : O → Prop) [DecidablePred allowed] : Machine S P C O where
  step := M.step
  call sh op := if allowed op then M.call sh op else none

variable {allowed : O → Prop} [DecidablePred allowed]

theorem only_call {sh : S} {op : O} {r : S × P} (h : (M.only allowed).call sh op = some r) :
    allowed op ∧ M.call sh op = some r := by
  simp only [only] at h
  split at h
  · exact ⟨‹_›, h⟩
  · cases h

end Machine

end ThreadPools.Interleaving
