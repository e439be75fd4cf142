import ThreadPools.Accounting.Lifecycle
import Mathlib.Logic.Function.Basic

/-! # Admission and task accounting shared by both pools

The counters are unbounded naturals. Every read-modify-write of the source is one
operation here; an assertion on the previous value that fails makes the operation
return `none`. The packed admission word is represented by its two parts.
-/
namespace ThreadPools

inductive SubmissionError where
  | shutdown | saturated | workerSpawnFailed
  deriving DecidableEq, Repr

inductive PoolJobSubmissionError where
  | rejected (error : SubmissionError)
  | acceptancePanicked
  deriving DecidableEq, Repr

/-- `none` is `Ok(())`. -/
abbrev SubmitResult := Option PoolJobSubmissionError

structure StopReport where
  queued : ℕ
  running : ℕ
  cancelled : ℕ
  deriving DecidableEq, Repr

/-- How code outside the pool ends: a callback returns or panics, a thread spawn
succeeds or fails, a wait is woken or times out. -/
inductive Outcome where
  | ok | err
  deriving DecidableEq, Repr

abbrev JobId := ℕ

theorem unbounded_pos : ∀ capacity ∈ (none : Option ℕ), 0 < capacity := by simp

theorem oneSlot_pos : ∀ capacity ∈ some 1, 0 < capacity := by simp

structure AdmissionGate where
  closed : Bool
  inflight : ℕ
  deriving DecidableEq, Repr

namespace AdmissionGate

def new : AdmissionGate := ⟨false, 0⟩

def tryEnter (g : AdmissionGate) : Option AdmissionGate :=
  if g.closed then none else some { g with inflight := g.inflight + 1 }

def close (g : AdmissionGate) : AdmissionGate := { g with closed := true }

/-- The result says whether this was the last entrant; `none` is the failed
"admission count underflow" assertion. -/
def leave (g : AdmissionGate) : Option (AdmissionGate × Bool) :=
  if 0 < g.inflight then some ({ g with inflight := g.inflight - 1 }, g.inflight == 1) else none

def isOpen (g : AdmissionGate) : Bool := !g.closed

end AdmissionGate

inductive Counter where
  | queueSlot | queued | running | cancelling | submitted | completed | cancelled
  deriving DecidableEq, Repr

structure PoolAccounting where
  admission : AdmissionGate
  queueCapacity : Option ℕ
  count : Counter → ℕ

namespace PoolAccounting

def new (queueCapacity : Option ℕ) : PoolAccounting := ⟨.new, queueCapacity, fun _ => 0⟩

def add (a : PoolAccounting) (c : Counter) : PoolAccounting :=
  { a with count := Function.update a.count c (a.count c + 1) }

/-- `fetch_sub(1)` on one counter, followed by the assertion that the previous
value was positive. -/
def sub (a : PoolAccounting) (c : Counter) : Option PoolAccounting :=
  if 0 < a.count c then some { a with count := Function.update a.count c (a.count c - 1) } else none

def tryEnter (a : PoolAccounting) : Option PoolAccounting :=
  a.admission.tryEnter.map fun g => { a with admission := g }

def leave (a : PoolAccounting) : Option (PoolAccounting × Bool) :=
  a.admission.leave.map fun r => ({ a with admission := r.1 }, r.2)

def closeAdmission (a : PoolAccounting) : PoolAccounting :=
  { a with admission := a.admission.close }

def isAdmissionOpen (a : PoolAccounting) : Bool := a.admission.isOpen
def inflightCount (a : PoolAccounting) : ℕ := a.admission.inflight
def queuedCount (a : PoolAccounting) : ℕ := a.count .queued
def runningCount (a : PoolAccounting) : ℕ := a.count .running

/-- The closure given to `fetch_update` refuses a full bounded queue; an unbounded
one reserves as a worker handoff does. -/
def tryReserveBoundedSlot (a : PoolAccounting) : Option PoolAccounting :=
  match a.queueCapacity with
  | some capacity => if a.count .queueSlot < capacity then some (a.add .queueSlot) else none
  | none => some (a.add .queueSlot)

def reserveWorkerHandoffSlot (a : PoolAccounting) : PoolAccounting := a.add .queueSlot

theorem sub_eq_some {a b : PoolAccounting} {c : Counter} (h : a.sub c = some b) :
    0 < a.count c ∧ b = { a with count := Function.update a.count c (a.count c - 1) } := by
  unfold sub at h
  split at h
  · exact ⟨‹_›, (Option.some.inj h).symm⟩
  · cases h

theorem sub_of_pos {a : PoolAccounting} {c : Counter} (h : 0 < a.count c) :
    a.sub c = some { a with count := Function.update a.count c (a.count c - 1) } := if_pos h

@[simp] theorem add_admission (a : PoolAccounting) (c : Counter) : (a.add c).admission = a.admission := rfl
@[simp] theorem add_capacity (a : PoolAccounting) (c : Counter) :
    (a.add c).queueCapacity = a.queueCapacity := rfl

@[simp] theorem add_count (a : PoolAccounting) (c d : Counter) :
    (a.add c).count d = a.count d + if d = c then 1 else 0 := by
  by_cases h : d = c
  · subst h; simp [add]
  · simp [add, h]

theorem sub_count {a b : PoolAccounting} {c : Counter} (h : a.sub c = some b) (d : Counter) :
    a.count d = b.count d + if d = c then 1 else 0 := by
  obtain ⟨hp, rfl⟩ := sub_eq_some h
  by_cases hd : d = c
  · subst hd; simp; omega
  · simp [hd]

theorem sub_admission {a b : PoolAccounting} {c : Counter} (h : a.sub c = some b) :
    b.admission = a.admission := by
  obtain ⟨-, rfl⟩ := sub_eq_some h
  rfl

theorem sub_capacity {a b : PoolAccounting} {c : Counter} (h : a.sub c = some b) :
    b.queueCapacity = a.queueCapacity := by
  obtain ⟨-, rfl⟩ := sub_eq_some h
  rfl

theorem tryEnter_capacity {a b : PoolAccounting} (h : a.tryEnter = some b) : b.queueCapacity = a.queueCapacity := by
  obtain ⟨g, -, rfl⟩ := Option.map_eq_some_iff.mp h
  rfl

theorem leave_capacity {a b : PoolAccounting} {last : Bool} (h : a.leave = some (b, last)) :
    b.queueCapacity = a.queueCapacity := by
  obtain ⟨g, -, hg⟩ := Option.map_eq_some_iff.mp h
  cases hg
  rfl

theorem tryReserveBoundedSlot_eq {a b : PoolAccounting} (h : a.tryReserveBoundedSlot = some b) :
    b = a.add .queueSlot := by
  unfold tryReserveBoundedSlot at h
  split at h
  · split at h
    · exact (Option.some.inj h).symm
    · cases h
  · exact (Option.some.inj h).symm

theorem tryReserveBoundedSlot_le {a b : PoolAccounting} (h : a.tryReserveBoundedSlot = some b) {capacity : ℕ}
    (hc : a.queueCapacity = some capacity) : b.count .queueSlot ≤ capacity := by
  simp only [tryReserveBoundedSlot, hc] at h
  split at h
  · cases h
    rw [add_count, if_pos rfl]
    exact Nat.succ_le_of_lt ‹_›
  · cases h

theorem tryReserveBoundedSlot_none {a : PoolAccounting} (h : a.tryReserveBoundedSlot = none) :
    a.queueCapacity ≠ none := by
  intro hq
  simp [tryReserveBoundedSlot, hq] at h

theorem inflightCount_of_sub {a b : PoolAccounting} {d : Counter} (h : a.sub d = some b) :
    b.inflightCount = a.inflightCount :=
  congrArg AdmissionGate.inflight (sub_admission h)

theorem inflightCount_of_tryEnter {a b : PoolAccounting} (h : a.tryEnter = some b) :
    b.inflightCount = a.inflightCount + 1 := by
  obtain ⟨g, hg, rfl⟩ := Option.map_eq_some_iff.mp h
  unfold AdmissionGate.tryEnter at hg
  split at hg
  · cases hg
  · cases hg
    rfl

theorem inflightCount_of_leave {a b : PoolAccounting} {last : Bool} (h : a.leave = some (b, last)) :
    b.inflightCount + 1 = a.inflightCount := by
  obtain ⟨g, hg, hb⟩ := Option.map_eq_some_iff.mp h
  unfold AdmissionGate.leave at hg
  split at hg
  · cases hg
    cases hb
    exact Nat.sub_add_cancel ‹_›
  · cases hg

def Calms (a a' : PoolAccounting) : Prop :=
  (a.admission.closed = true → a'.admission.closed = true ∧ a'.inflightCount ≤ a.inflightCount) ∧
    ∀ d, a'.count d ≤ a.count d

theorem Calms.refl (a : PoolAccounting) : Calms a a := ⟨fun h => ⟨h, Nat.le_refl _⟩, fun _ => Nat.le_refl _⟩

theorem Calms.of_sub {a a' : PoolAccounting} {d : Counter} (h : a.sub d = some a') : Calms a a' := by
  refine ⟨fun hc => ?_, fun e => ?_⟩
  · rw [inflightCount, inflightCount, sub_admission h]
    exact ⟨hc, Nat.le_refl _⟩
  · have := sub_count h e
    omega

theorem Calms.of_tryEnter {a a' : PoolAccounting} (h : a.tryEnter = some a') : Calms a a' := by
  obtain ⟨g, hg, rfl⟩ := Option.map_eq_some_iff.mp h
  unfold AdmissionGate.tryEnter at hg
  split at hg
  · cases hg
  · exact ⟨fun hc => absurd hc ‹_›, fun _ => Nat.le_refl _⟩

theorem Calms.of_leave {a a' : PoolAccounting} {last : Bool} (h : a.leave = some (a', last)) : Calms a a' := by
  obtain ⟨g, hg, ha⟩ := Option.map_eq_some_iff.mp h
  unfold AdmissionGate.leave at hg
  split at hg
  · cases hg
    cases ha
    exact ⟨fun hc => ⟨hc, Nat.sub_le _ _⟩, fun _ => Nat.le_refl _⟩
  · cases hg

theorem Calms.of_close (a : PoolAccounting) : Calms a a.closeAdmission :=
  ⟨fun _ => ⟨rfl, Nat.le_refl _⟩, fun _ => Nat.le_refl _⟩

end PoolAccounting

/-- The four loads of `is_idle`, in the order of its conjunction. -/
inductive IdleRead where
  | inflight | slots | running | cancelling
  deriving DecidableEq, Repr

namespace IdleRead

def next : IdleRead → Option IdleRead
  | .inflight => some .slots
  | .slots => some .running
  | .running => some .cancelling
  | .cancelling => none

def value (a : PoolAccounting) : IdleRead → ℕ
  | .inflight => a.inflightCount
  | .slots => a.count .queueSlot
  | .running => a.runningCount
  | .cancelling => a.count .cancelling

def rank : IdleRead → ℕ
  | .inflight => 0
  | .slots => 1
  | .running => 2
  | .cancelling => 3

theorem rank_next {r r' : IdleRead} (h : r.next = some r') : r'.rank = r.rank + 1 := by
  cases r <;> cases h <;> rfl

theorem rank_last {r : IdleRead} (h : r.next = none) : r.rank = 3 := by
  cases r <;> first | rfl | cases h

end IdleRead

/-- Admission is closed and the first `n` loads of `is_idle` would see zero. -/
def PoolAccounting.Sealed (a : PoolAccounting) (n : ℕ) : Prop :=
  a.admission.closed = true ∧ ∀ r : IdleRead, r.rank < n → r.value a = 0

theorem PoolAccounting.Sealed.more {a : PoolAccounting} {r : IdleRead} (h : a.Sealed r.rank)
    (hr : r.value a = 0) : a.Sealed (r.rank + 1) := by
  refine ⟨h.1, fun q hq => ?_⟩
  by_cases hlt : q.rank < r.rank
  · exact h.2 q hlt
  · have he : q = r := by cases q <;> cases r <;> first | rfl | (simp [IdleRead.rank] at hq hlt)
    rw [he]
    exact hr

structure PoolCounterSnapshot where
  inflightSubmissions : ℕ
  queuedTasks : ℕ
  runningTasks : ℕ
  cancellingTasks : ℕ
  submittedTasks : ℕ
  completedTasks : ℕ
  cancelledTasks : ℕ
  deriving DecidableEq, Repr

/-- The loads of `snapshot`, in its order. -/
inductive SnapshotRead where
  | inflight | queued | running | cancelling | submitted | completed | cancelled
  deriving DecidableEq, Repr

namespace SnapshotRead

def next : SnapshotRead → Option SnapshotRead
  | .inflight => some .queued
  | .queued => some .running
  | .running => some .cancelling
  | .cancelling => some .submitted
  | .submitted => some .completed
  | .completed => some .cancelled
  | .cancelled => none

def load (a : PoolAccounting) (s : PoolCounterSnapshot) : SnapshotRead → PoolCounterSnapshot
  | .inflight => { s with inflightSubmissions := a.inflightCount }
  | .queued => { s with queuedTasks := a.queuedCount }
  | .running => { s with runningTasks := a.runningCount }
  | .cancelling => { s with cancellingTasks := a.count .cancelling }
  | .submitted => { s with submittedTasks := a.count .submitted }
  | .completed => { s with completedTasks := a.count .completed }
  | .cancelled => { s with cancelledTasks := a.count .cancelled }

end SnapshotRead

end ThreadPools
