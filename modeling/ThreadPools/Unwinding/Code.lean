import Mathlib.Data.List.Basic

/-! # Code that may unwind

A piece of code leaves a trace and returns, unwinds with a payload or aborts. Locals are
destroyed in either of the first two cases; a destructor that unwinds while its scope is
already unwinding aborts. `catchUnwind` hands the payload to its caller, and the payload is
a value with a destructor of its own.
-/
namespace ThreadPools.Unwinding
variable {E P A B : Type}

inductive Exit (P A : Type) where
  | returned (a : A)
  | unwinding (payload : P)
  | aborted
  deriving DecidableEq

structure Code (E P A : Type) where
  trace : List E
  exit : Exit P A
  deriving DecidableEq

/-- What code of a user does when it is called or dropped: `none` returns. -/
abbrev Behaviour (P : Type) := Option P

namespace Code

protected def pure (a : A) : Code E P A := ⟨[], .returned a⟩

protected def bind (x : Code E P A) (f : A → Code E P B) : Code E P B :=
  match x.exit with
  | .returned a => ⟨x.trace ++ (f a).trace, (f a).exit⟩
  | .unwinding p => ⟨x.trace, .unwinding p⟩
  | .aborted => ⟨x.trace, .aborted⟩

instance : Monad (Code E P) where
  pure := Code.pure
  bind := Code.bind

def emit (e : E) : Code E P Unit := ⟨[e], .returned ()⟩

def call (b : Behaviour P) : Code E P Unit :=
  match b with
  | none => ⟨[], .returned ()⟩
  | some p => ⟨[], .unwinding p⟩

def catchUnwind (x : Code E P A) : Code E P (Except P A) :=
  match x.exit with
  | .returned a => ⟨x.trace, .returned (.ok a)⟩
  | .unwinding p => ⟨x.trace, .returned (.error p)⟩
  | .aborted => ⟨x.trace, .aborted⟩

/-- `x` with a value at hand that is destroyed by `d` if `x` unwinds. -/
def cleanup (x : Code E P A) (d : Code E P Unit) : Code E P A :=
  match x.exit, d.exit with
  | .unwinding p, .returned () => ⟨x.trace ++ d.trace, .unwinding p⟩
  | .unwinding _, _ => ⟨x.trace ++ d.trace, .aborted⟩
  | _, _ => x

/-- `x` in the scope of a local that is destroyed by `d`. -/
def inScope (x : Code E P A) (d : Code E P Unit) : Code E P A := do
  let a ← cleanup x d
  d
  return a

/-- Destroys several values in order, the rest of them also if one unwinds. -/
def dropGlue : List (Behaviour P) → Code E P Unit
  | [] => pure ()
  | b :: bs => inScope (call b) (dropGlue bs)

def dropResult (drops : P → Behaviour P) : Except P Unit → Code E P Unit
  | .ok () => pure ()
  | .error p => call (drops p)

/-- `let _ignored = catch_unwind(x)` as the last statement of a function. -/
def ignore (drops : P → Behaviour P) (x : Code E P Unit) : Code E P Unit := do
  let r ← catchUnwind x
  dropResult drops r

end Code

def payloads (bs : List (Behaviour P)) : List P := bs.filterMap id

/-- At most one of them unwinds, and its payload can be destroyed. -/
def Defused (drops : P → Behaviour P) (bs : List (Behaviour P)) : Prop :=
  (payloads bs).length ≤ 1 ∧ ∀ p ∈ payloads bs, drops p = none

namespace Code
variable {x : Code E P A} {f : A → Code E P B} {d : Code E P Unit} {a : A} {b : B} {drops : P → Behaviour P}

theorem bind_of_returned (h : x.exit = .returned a) : x >>= f = ⟨x.trace ++ (f a).trace, (f a).exit⟩ := by
  change Code.bind x f = _
  rw [Code.bind, h]

theorem bind_returned_iff : (x >>= f).exit = .returned b ↔ ∃ a, x.exit = .returned a ∧ (f a).exit = .returned b := by
  change (Code.bind x f).exit = _ ↔ _
  unfold Code.bind
  cases hx : x.exit with
  | returned a => simp
  | _ => simp

theorem cleanup_returned_iff : (cleanup x d).exit = .returned a ↔ x.exit = .returned a := by
  unfold cleanup
  split <;> simp_all

theorem cleanup_of_returned (h : x.exit = .returned a) : cleanup x d = x := by
  unfold cleanup
  split <;> simp_all

theorem inScope_returned_iff : (inScope x d).exit = .returned a ↔ x.exit = .returned a ∧ d.exit = .returned () := by
  rw [inScope, bind_returned_iff]
  constructor
  · rintro ⟨a', hx, h⟩
    obtain ⟨u, hd, h⟩ := bind_returned_iff.mp h
    cases h
    exact ⟨cleanup_returned_iff.mp hx, hd⟩
  · rintro ⟨hx, hd⟩
    exact ⟨a, cleanup_returned_iff.mpr hx, bind_returned_iff.mpr ⟨(), hd, rfl⟩⟩

theorem inScope_of_returned (hx : x.exit = .returned a) (hd : d.exit = .returned ()) :
    inScope x d = ⟨x.trace ++ d.trace, .returned a⟩ := by
  rw [inScope, cleanup_of_returned hx, bind_of_returned hx, bind_of_returned hd]
  exact congrArg (Code.mk · _) (congrArg _ (List.append_nil _))

/-- What is left of user code that was caught is the destruction of its payload. -/
theorem ignore_call (b : Behaviour P) : ignore drops (call b : Code E P Unit) = call (b.bind drops) := by
  cases b with
  | none => rfl
  | some p =>
    have h : ignore drops (call (some p) : Code E P Unit) = ⟨[] ++ (call (drops p)).trace, (call (drops p)).exit⟩ := rfl
    rw [h, List.nil_append]
    rfl

theorem emit_bind (e : E) (f : Unit → Code E P B) : emit e >>= f = ⟨e :: (f ()).trace, (f ()).exit⟩ := rfl

theorem eq_pure (ht : x.trace = []) (hx : x.exit = .returned a) : x = pure a := by
  cases x
  cases ht
  cases hx
  rfl

@[simp] theorem pure_trace (a : A) : (pure a : Code E P A).trace = [] := rfl

theorem pure_bind (a : A) (f : A → Code E P B) : (pure a : Code E P A) >>= f = f a := rfl

theorem catchUnwind_trace (x : Code E P A) : (catchUnwind x).trace = x.trace := by
  unfold catchUnwind
  split <;> rfl

theorem call_trace (b : Behaviour P) : (call b : Code E P Unit).trace = [] := by cases b <;> rfl

theorem call_returned_iff {b : Behaviour P} : (call b : Code E P Unit).exit = .returned () ↔ b = none := by
  cases b <;> simp [call]

theorem dropResult_trace (r : Except P Unit) : (dropResult drops r : Code E P Unit).trace = [] := by
  cases r with
  | ok _ => rfl
  | error p => exact call_trace (drops p)

theorem bind_trace (ht : x.trace = []) (hf : ∀ a, (f a).trace = []) : (x >>= f).trace = [] := by
  change (Code.bind x f).trace = []
  unfold Code.bind
  split
  · simp [ht, hf]
  · exact ht
  · exact ht

theorem ignore_trace {x : Code E P Unit} (ht : x.trace = []) : (ignore drops x).trace = [] :=
  bind_trace ((catchUnwind_trace x).trans ht) dropResult_trace

theorem cleanup_trace (ht : x.trace = []) (hd : d.trace = []) : (cleanup x d).trace = [] := by
  unfold cleanup
  split
  · exact congrArg₂ _ ht hd
  · exact congrArg₂ _ ht hd
  · exact ht

theorem inScope_trace (ht : x.trace = []) (hd : d.trace = []) : (inScope x d).trace = [] :=
  bind_trace (cleanup_trace ht hd) fun _ => bind_trace hd fun _ => rfl

theorem dropGlue_trace (bs : List (Behaviour P)) : (dropGlue bs : Code E P Unit).trace = [] := by
  induction bs with
  | nil => rfl
  | cons b bs ih => exact inScope_trace (call_trace b) ih

theorem dropGlue_singleton (b : Behaviour P) : (dropGlue [b] : Code E P Unit) = call b := by cases b <;> rfl

theorem inScope_call (b b' : Behaviour P) : inScope (call b) (call b' : Code E P Unit) = dropGlue [b, b'] := by
  rw [dropGlue, dropGlue_singleton]

theorem inScope_inScope_call (b b' b'' : Behaviour P) :
    inScope (inScope (call b) (call b')) (call b'' : Code E P Unit) = dropGlue [b, b', b''] := by
  rw [dropGlue, ← inScope_call]
  cases b <;> cases b' <;> cases b'' <;> rfl

def ending : List P → Exit P Unit
  | [] => .returned ()
  | [p] => .unwinding p
  | _ => .aborted

theorem inScope_none (d : Code E P Unit) : (inScope (call none) d).exit = d.exit := by
  obtain ⟨t, x⟩ := d
  cases x <;> rfl

theorem inScope_some (p : P) (d : Code E P Unit) :
    (inScope (call (some p)) d).exit = match d.exit with
      | .returned () => .unwinding p
      | _ => .aborted := by
  obtain ⟨t, x⟩ := d
  cases x <;> rfl

theorem dropGlue_exit (bs : List (Behaviour P)) : (dropGlue bs : Code E P Unit).exit = ending (payloads bs) := by
  induction bs with
  | nil => rfl
  | cons b bs ih =>
    cases b with
    | none => exact (inScope_none _).trans ih
    | some p =>
      refine (inScope_some p _).trans ?_
      rw [ih]
      change _ = ending (p :: payloads bs)
      -- A second payload aborts, however many follow.
      rcases payloads bs with _ | ⟨p', _ | ⟨p'', ps⟩⟩
      all_goals rfl

theorem ignore_exit {x : Code E P Unit} : (ignore drops x).exit = .returned () ↔
    x.exit = .returned () ∨ ∃ p, x.exit = .unwinding p ∧ drops p = none := by
  obtain ⟨t, r⟩ := x
  cases r with
  | returned u => exact iff_of_true rfl (.inl rfl)
  | unwinding p =>
    refine call_returned_iff.trans ⟨fun h => .inr ⟨p, rfl, h⟩, ?_⟩
    rintro (h | ⟨q, h, hq⟩)
    · cases h
    · cases h
      exact hq
  | aborted =>
    refine ⟨nofun, ?_⟩
    rintro (h | ⟨q, h, -⟩) <;> cases h

/-- A caught destruction leaves nothing behind exactly if its values are defused. -/
theorem ignore_dropGlue_iff {bs : List (Behaviour P)} :
    (ignore drops (dropGlue bs) : Code E P Unit).exit = .returned () ↔ Defused drops bs := by
  rw [ignore_exit, dropGlue_exit, Defused]
  rcases payloads bs with _ | ⟨p, _ | ⟨p', ps⟩⟩
  · simp [ending]
  · simp [ending]
  · simp [ending]

end Code

section
variable [DecidableEq E]

/-- Every `a` is followed by one `b` of its own. -/
def Settled (a b : E) (l : List E) : Prop := l.count a = l.count b ∧ ∀ n, (l.take n).count b ≤ (l.take n).count a

namespace Settled
variable {a b : E} {l l' : List E}

theorem append (h : Settled a b l) (h' : Settled a b l') : Settled a b (l ++ l') := by
  refine ⟨?_, fun n => ?_⟩
  · rw [List.count_append, List.count_append, h.1, h'.1]
  · rw [List.take_append, List.count_append, List.count_append]
    exact Nat.add_le_add (h.2 n) (h'.2 _)

theorem of_absent (ha : a ∉ l) (hb : b ∉ l) : Settled a b l := by
  refine ⟨(List.count_eq_zero.mpr ha).trans (List.count_eq_zero.mpr hb).symm, fun n => ?_⟩
  rw [List.count_eq_zero.mpr fun h => hb (List.mem_of_mem_take h)]
  exact Nat.zero_le _

/-- First all the `a`, then as many `b`. -/
theorem replicate (hab : a ≠ b) (n : ℕ) : Settled a b (List.replicate n a ++ List.replicate n b) := by
  refine ⟨?_, fun m => ?_⟩
  · simp [List.count_append, List.count_replicate, hab, hab.symm]
  · rw [List.take_append, List.take_replicate, List.length_replicate, List.take_replicate, List.count_append,
      List.count_append, List.count_replicate, List.count_replicate, List.count_replicate, List.count_replicate]
    simp only [beq_self_eq_true, beq_iff_eq, hab, hab.symm, reduceIte]
    omega

theorem pair (hab : a ≠ b) : Settled a b [a, b] := replicate hab 1

end Settled

end

end ThreadPools.Unwinding
