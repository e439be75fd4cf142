import Mathlib.Data.Multiset.Bind
import Mathlib.Logic.Relation

/-! # Interleaved actors over one shared state

A machine has one shared state and any number of actors, each of which stands at
a control point. One step lets one actor perform one atomic action, which may
create further actors; a call adds an actor at any time. Runs are executable
schedules; invariants are stated over the shared state and the multiset of
control points, so that no proof depends on the numbering of the actors.
-/
namespace ThreadPools.Interleaving
variable {S P C O : Type}

structure State (S P : Type) where
  shared : S
  actors : List P

/-- One entry of a schedule: actor `i` acts with outcome `c`, or `op` is called. -/
inductive Move (C O : Type) where
  | act (i : ℕ) (c : C)
  | call (op : O)

def turns (i n : ℕ) (c : C) : List (Move C O) := List.replicate n (.act i c)

/-- What the execution of a schedule ends in is reachable. -/
theorem foldlM_reaches {A T : Type} {next : A → T → Option A} {s t : A} {ms : List T}
    (h : ms.foldlM next s = some t) : Relation.ReflTransGen (fun s t => ∃ m, next s m = some t) s t := by
  induction ms generalizing s with
  | nil =>
    cases h
    exact .refl
  | cons m ms ih =>
    obtain ⟨u, hu, h⟩ := Option.bind_eq_some_iff.mp h
    exact .head ⟨m, hu⟩ (ih h)

structure Machine (S P C O : Type) where
  step : S → P → C → Option (S × P × List P)
  call : S → O → Option (S × P)

namespace Machine
variable (M : Machine S P C O)

/-- A condition on the state before an actor's step: the shared state, all the
actors, the control point that moves and the outcome of the move. -/
abbrev Guard (S P C : Type) := S → Multiset P → P → C → Prop

def free : Guard S P C := fun _ _ _ _ => True

instance (sh : S) (ps : Multiset P) (p : P) (c : C) : Decidable (free sh ps p c) :=
  inferInstanceAs (Decidable True)

section
variable (ok : Guard S P C) [∀ sh ps p c, Decidable (ok sh ps p c)]

/-- One entry of a schedule; `none` if the actor cannot act or the guard forbids it. -/
def next (s : State S P) : Move C O → Option (State S P)
  | .act i c => s.actors[i]?.bind fun p =>
      if ok s.shared s.actors p c then
        (M.step s.shared p c).map fun r => ⟨r.1, s.actors.set i r.2.1 ++ r.2.2⟩
      else none
  | .call op => (M.call s.shared op).map fun r => ⟨r.1, s.actors ++ [r.2]⟩

def exec : State S P → List (Move C O) → Option (State S P)
  | s, [] => some s
  | s, m :: ms => (M.next ok s m).bind fun t => exec t ms

def trace : State S P → List (Move C O) → Option (List (State S P))
  | s, [] => some [s]
  | s, m :: ms => (M.next ok s m).bind fun t => (trace t ms).map (s :: ·)

end

inductive Follows (ok : Guard S P C) (s : State S P) : State S P → Prop where
  | act {i : ℕ} {c : C} {p : P} {r : S × P × List P} (hp : s.actors[i]? = some p)
      (hs : M.step s.shared p c = some r) (hok : ok s.shared s.actors p c) :
      Follows ok s ⟨r.1, s.actors.set i r.2.1 ++ r.2.2⟩
  | call {op : O} {r : S × P} (hc : M.call s.shared op = some r) :
      Follows ok s ⟨r.1, s.actors ++ [r.2]⟩

/-- Runs all of whose steps meet the guard. -/
abbrev Run (ok : Guard S P C) : State S P → State S P → Prop :=
  Relation.ReflTransGen (M.Follows ok)

section
variable {ok : Guard S P C} [∀ sh ps p c, Decidable (ok sh ps p c)]

theorem next_follows {s t : State S P} {m : Move C O} (h : M.next ok s m = some t) :
    M.Follows ok s t := by
  cases m with
  | act i c =>
    obtain ⟨p, hp, h⟩ := Option.bind_eq_some_iff.mp h
    split at h
    · rename_i hok
      obtain ⟨r, hr, rfl⟩ := Option.map_eq_some_iff.mp h
      exact .act hp hr hok
    · cases h
  | call op =>
    obtain ⟨r, hr, rfl⟩ := Option.map_eq_some_iff.mp h
    exact .call hr

/-- Every executed schedule is a run. -/
theorem exec_run {s t : State S P} {ms : List (Move C O)} (h : M.exec ok s ms = some t) :
    M.Run ok s t := by
  induction ms generalizing s with
  | nil => cases h; exact .refl
  | cons m ms ih =>
    obtain ⟨u, hu, h⟩ := Option.bind_eq_some_iff.mp h
    exact .head (M.next_follows hu) (ih h)

/-- What is read off the end of an executed schedule is read off a reachable state. -/
theorem exec_reaches {A : Type} {s : State S P} {ms : List (Move C O)} {f : State S P → A} {a : A}
    (h : (M.exec ok s ms).map f = some a) : ∃ t, M.Run ok s t ∧ f t = a := by
  obtain ⟨t, ht, ha⟩ := Option.map_eq_some_iff.mp h
  exact ⟨t, M.exec_run ht, ha⟩

end

theorem Follows.weaken {M : Machine S P C O} {ok ok' : Guard S P C} {s t : State S P}
    (hw : ∀ sh ps p c, ok sh ps p c → ok' sh ps p c) (h : M.Follows ok s t) : M.Follows ok' s t := by
  cases h with
  | act hp hs hok => exact .act hp hs (hw _ _ _ _ hok)
  | call hc => exact .call hc

theorem Run.weaken {M : Machine S P C O} {ok ok' : Guard S P C} {s t : State S P}
    (hw : ∀ sh ps p c, ok sh ps p c → ok' sh ps p c) (h : M.Run ok s t) : M.Run ok' s t :=
  h.lift id fun _ _ hf => hf.weaken hw

/-- The guard may be exchanged using what is known of the states along the run. -/
theorem Run.weaken_along {M : Machine S P C O} {ok ok' : Guard S P C} {s t : State S P}
    (hw : ∀ u, M.Run ok s u → ∀ p c, ok u.shared u.actors p c → ok' u.shared u.actors p c)
    (h : M.Run ok s t) : M.Run ok' s t := by
  induction h with
  | refl => exact .refl
  | @tail u v hu hf ih =>
    refine ih.tail ?_
    cases hf with
    | act hp hs hok => exact .act hp hs (hw u hu _ _ hok)
    | call hc => exact .call hc

theorem Run.free {M : Machine S P C O} {ok : Guard S P C} {s t : State S P} (h : M.Run ok s t) :
    M.Run Machine.free s t := h.weaken fun _ _ _ _ _ => trivial

/-- Seen from actor `i`, a step is its own or leaves it where it stands. -/
theorem Follows.moves {M : Machine S P C O} {ok : Guard S P C} {u v : State S P} {i : ℕ} {p : P}
    (h : M.Follows ok u v) (hp : u.actors[i]? = some p) :
    v.actors[i]? = some p ∨
      ∃ c r, M.step u.shared p c = some r ∧ v.shared = r.1 ∧ v.actors[i]? = some r.2.1 := by
  obtain ⟨hi, hpi⟩ := List.getElem?_eq_some_iff.mp hp
  cases h with
  | @act k c q r hq hs _ =>
    by_cases hk : k = i
    · subst hk
      rw [hp] at hq
      cases hq
      refine Or.inr ⟨c, r, hs, rfl, ?_⟩
      rw [List.getElem?_append_left (by simpa using hi), List.getElem?_set_self hi]
    · left
      rw [List.getElem?_append_left (by simpa using hi), List.getElem?_set_ne hk]
      exact hp
  | call _ =>
    left
    rw [List.getElem?_append_left hi]
    exact hp

/-- What holds of actor `i` survives its own steps and those of the others. -/
theorem Run.tracks {M : Machine S P C O} {ok : Guard S P C} {s t : State S P} {i : ℕ} {p : P}
    {K : State S P → P → Prop}
    (hown : ∀ u v q c r, M.Run ok s u → M.Follows ok u v → u.actors[i]? = some q →
      M.step u.shared q c = some r → v.shared = r.1 → K u q → K v r.2.1)
    (hframe : ∀ u v q, M.Run ok s u → M.Follows ok u v → u.actors[i]? = some q → K u q → K v q)
    (h : M.Run ok s t) (hp : s.actors[i]? = some p) (hK : K s p) : ∃ q, t.actors[i]? = some q ∧ K t q := by
  induction h with
  | refl => exact ⟨p, hp, hK⟩
  | @tail u v hu hf ih =>
    obtain ⟨q, hq, hK⟩ := ih
    rcases hf.moves hq with hv | ⟨c, r, hr, hsh, hv⟩
    · exact ⟨q, hv, hframe u v q hu hf hq hK⟩
    · exact ⟨r.2.1, hv, hown u v q c r hu hf hq hr hsh hK⟩

/-- The states of a run during which actor `i` stands at control points in `D`, up to
the one in which it has reached `q`. -/
inductive Stretch (ok : Guard S P C) (i : ℕ) (D : P → Prop) (q : P) : List (State S P) → Prop where
  | last {u t : State S P} {p : P} (hp : u.actors[i]? = some p) (hD : D p) (hf : M.Follows ok u t)
      (hq : t.actors[i]? = some q) : Stretch ok i D q [u, t]
  | cons {u v : State S P} {us : List (State S P)} {p : P} (hp : u.actors[i]? = some p) (hD : D p)
      (hf : M.Follows ok u v) (h : Stretch ok i D q (v :: us)) : Stretch ok i D q (u :: v :: us)

theorem Stretch.head {M : Machine S P C O} {ok : Guard S P C} {i : ℕ} {D : P → Prop} {q : P}
    {u : State S P} {us : List (State S P)} (h : M.Stretch ok i D q (u :: us)) :
    ∃ p, u.actors[i]? = some p ∧ D p := by
  cases h with
  | last hp hD => exact ⟨_, hp, hD⟩
  | cons hp hD => exact ⟨_, hp, hD⟩

section
variable {ok : Guard S P C} [∀ sh ps p c, Decidable (ok sh ps p c)] {s : State S P} {ms : List (Move C O)}
variable {l : List (State S P)}

theorem trace_eq_cons (h : M.trace ok s ms = some l) : ∃ us, l = s :: us := by
  cases ms with
  | nil =>
    cases h
    exact ⟨[], rfl⟩
  | cons m ms =>
    obtain ⟨t, -, h⟩ := Option.bind_eq_some_iff.mp h
    obtain ⟨us, -, rfl⟩ := Option.map_eq_some_iff.mp h
    exact ⟨us, rfl⟩

/-- An executed schedule during which actor `i` stands at the control points `ps`. -/
theorem trace_stretch {i : ℕ} {D : P → Prop} {ps : List P} {q : P} (h : M.trace ok s ms = some l)
    (hl : (l.map fun u => u.actors[i]?) = ps.map some ++ [some q]) (hps : ps ≠ []) (hD : ∀ p ∈ ps, D p) :
    M.Stretch ok i D q l := by
  induction ms generalizing s l ps with
  | nil =>
    cases h
    cases ps with
    | nil => exact absurd rfl hps
    | cons p ps => simp at hl
  | cons m ms ih =>
    obtain ⟨t, ht, h⟩ := Option.bind_eq_some_iff.mp h
    obtain ⟨us, hus, rfl⟩ := Option.map_eq_some_iff.mp h
    obtain ⟨vs, rfl⟩ := M.trace_eq_cons hus
    cases ps with
    | nil => exact absurd rfl hps
    | cons p ps =>
      obtain ⟨hp, hl⟩ := List.cons.inj hl
      have hDp := hD p List.mem_cons_self
      cases ps with
      | nil =>
        obtain ⟨hq, hnil⟩ := List.cons.inj hl
        obtain rfl : vs = [] := List.map_eq_nil_iff.mp hnil
        exact .last hp hDp (M.next_follows ht) hq
      | cons p' ps =>
        exact .cons hp hDp (M.next_follows ht) (ih hus hl nofun fun x hx => hD x (List.mem_cons_of_mem p hx))

end

/-- Who stands where after a step: the acting control point, one that has not moved, or a
created actor. -/
theorem getElem?_set_append {ps new : List P} {i k : ℕ} {p p' q : P} (hp : ps[i]? = some p)
    (h : (ps.set i p' ++ new)[k]? = some q) : (k = i ∧ q = p') ∨ (k ≠ i ∧ ps[k]? = some q) ∨ q ∈ new := by
  obtain ⟨hi, -⟩ := List.getElem?_eq_some_iff.mp hp
  by_cases hk : k < (ps.set i p').length
  · rw [List.getElem?_append_left hk] at h
    by_cases hik : i = k
    · subst hik
      rw [List.getElem?_set_self hi] at h
      exact Or.inl ⟨rfl, (Option.some.inj h).symm⟩
    · rw [List.getElem?_set_ne hik] at h
      exact Or.inr (Or.inl ⟨Ne.symm hik, h⟩)
  · rw [List.getElem?_append_right (Nat.le_of_not_lt hk)] at h
    exact Or.inr (Or.inr (List.mem_of_getElem? h))

/-- The actors around a step: the acting control point is exchanged, the created
actors are added and nobody else moves. -/
theorem coe_set_append {ps : List P} {i : ℕ} {p : P} (p' : P) (new : List P) (h : ps[i]? = some p) :
    ∃ rest : Multiset P, (ps : Multiset P) = p ::ₘ rest ∧
      ((ps.set i p' ++ new : List P) : Multiset P) = p' ::ₘ (↑new + rest) := by
  obtain ⟨hi, rfl⟩ := List.getElem?_eq_some_iff.mp h
  refine ⟨(ps.eraseIdx i : List P), ?_, ?_⟩
  · rw [Multiset.cons_coe, Multiset.coe_eq_coe]
    exact (List.getElem_cons_eraseIdx_perm hi).symm
  · have hset : (ps.set i p').Perm (p' :: ps.eraseIdx i) := by
      have hi' : i < (ps.set i p').length := by simpa using hi
      have hperm := (List.getElem_cons_eraseIdx_perm hi').symm
      simpa [List.eraseIdx_set_eq] using hperm
    rw [Multiset.coe_add, Multiset.cons_coe, Multiset.coe_eq_coe]
    exact ((hset.append_right new).trans List.perm_append_comm).trans
      (List.perm_middle.trans (List.Perm.refl _))

/-- The induction over runs: an invariant holds at the start and survives every
guarded step and every call. The steps may use what is known along the run already. -/
theorem Run.invariant_along {M : Machine S P C O} {ok : Guard S P C} {I Inv : S → Multiset P → Prop}
    {s t : State S P} (hI : ∀ u, M.Run ok s u → I u.shared u.actors)
    (hstep : ∀ sh p rest c sh' p' new, I sh (p ::ₘ rest) → Inv sh (p ::ₘ rest) → ok sh (p ::ₘ rest) p c →
      M.step sh p c = some (sh', p', new) → Inv sh' (p' ::ₘ (↑new + rest)))
    (hcall : ∀ sh ps op sh' p, I sh ps → Inv sh ps → M.call sh op = some (sh', p) → Inv sh' (p ::ₘ ps))
    (h : M.Run ok s t) (hs : Inv s.shared s.actors) : Inv t.shared t.actors := by
  induction h with
  | refl => exact hs
  | @tail u v hu hf ih =>
    have hi := hI u hu
    cases hf with
    | @act i c p r hp hr hok =>
      obtain ⟨rest, hrest, hrest'⟩ := coe_set_append r.2.1 r.2.2 hp
      rw [hrest] at ih hok hi
      simp only [hrest']
      exact hstep _ p rest c _ _ _ hi ih hok hr
    | @call op r hc =>
      have hadd : ∀ ps : List P, ((ps ++ [r.2] : List P) : Multiset P) = r.2 ::ₘ (ps : Multiset P) := by
        intro ps
        rw [Multiset.cons_coe, Multiset.coe_eq_coe]
        exact List.perm_append_comm
      simp only [hadd]
      exact hcall _ _ op _ _ hi ih hc

theorem Run.invariant {M : Machine S P C O} {ok : Guard S P C} {Inv : S → Multiset P → Prop}
    (hstep : ∀ sh p rest c sh' p' new, Inv sh (p ::ₘ rest) → ok sh (p ::ₘ rest) p c →
      M.step sh p c = some (sh', p', new) → Inv sh' (p' ::ₘ (↑new + rest)))
    (hcall : ∀ sh ps op sh' p, Inv sh ps → M.call sh op = some (sh', p) → Inv sh' (p ::ₘ ps))
    {s t : State S P} (h : M.Run ok s t) (hs : Inv s.shared s.actors) : Inv t.shared t.actors :=
  h.invariant_along (I := fun _ _ => True) (fun _ _ => trivial)
    (fun sh p rest c sh' p' new _ => hstep sh p rest c sh' p' new)
    (fun sh ps op sh' p _ => hcall sh ps op sh' p) hs

/-- What an actor does in `n` steps with outcome `c` while nobody else moves. -/
def solo (c : C) : ℕ → S × P → Option (S × P)
  | 0, s => some s
  | n + 1, s => (M.step s.1 s.2 c).bind fun r => if r.2.2.isEmpty then solo c n (r.1, r.2.1) else none

theorem solo_step {c : C} {n : ℕ} {sh sh' : S} {p p' : P} (h : M.step sh p c = some (sh', p', [])) :
    M.solo c (n + 1) (sh, p) = M.solo c n (sh', p') := by
  simp [solo, h]

/-- The steps of the last actor on its own are a run. -/
theorem solo_run {c : C} {n : ℕ} {sh sh' : S} {p p' : P} {ps : List P}
    (h : M.solo c n (sh, p) = some (sh', p')) : M.Run free ⟨sh, ps ++ [p]⟩ ⟨sh', ps ++ [p']⟩ := by
  induction n generalizing sh p with
  | zero =>
    cases h
    exact .refl
  | succ n ih =>
    obtain ⟨⟨u, q, new⟩, hr, h⟩ := Option.bind_eq_some_iff.mp h
    split at h
    · rename_i hnew
      obtain rfl := List.isEmpty_iff.mp hnew
      have hf : M.Follows free ⟨sh, ps ++ [p]⟩ ⟨u, (ps ++ [p]).set ps.length q ++ []⟩ :=
        .act (s := ⟨sh, ps ++ [p]⟩) List.getElem?_concat_length hr trivial
      rw [List.set_append_right _ _ (Nat.le_refl _), Nat.sub_self, List.append_nil] at hf
      exact .head hf (ih h)
    · cases h

end Machine

end ThreadPools.Interleaving
