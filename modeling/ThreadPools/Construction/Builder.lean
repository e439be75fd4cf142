import ThreadPools.Fixed.State
import ThreadPools.Dynamic.State

/-! # The builders of the two pools

The checks run in the order of the source, and the first one that fails names its field. A
configuration that passes them carries what they have checked.
-/
namespace ThreadPools

inductive ExecutorServiceBuilderError where
  | zeroPoolSize
  | zeroMaximumPoolSize
  | corePoolSizeExceedsMaximum (corePoolSize maximumPoolSize : ℕ)
  | zeroQueueCapacity
  | zeroStackSize
  | zeroKeepAlive
  deriving DecidableEq

abbrev Checked := Except ExecutorServiceBuilderError Unit

/-- `require_positive` with its error mapped by `map_argument_error`. -/
def requirePositive (n : ℕ) (error : ExecutorServiceBuilderError) : Checked :=
  if 0 < n then .ok () else .error error

def requireAtMost (n bound : ℕ) (error : ExecutorServiceBuilderError) : Checked :=
  if n ≤ bound then .ok () else .error error

/-- `validate_some` with `require_positive`. -/
def requireSomePositive (o : Option ℕ) (error : ExecutorServiceBuilderError) : Checked :=
  match o with
  | some n => requirePositive n error
  | none => .ok ()

variable {n bound : ℕ} {o : Option ℕ} {error : ExecutorServiceBuilderError}

@[simp] theorem Checked.bind_ok {x : Checked} {k : Unit → Checked} :
    (x >>= k) = .ok () ↔ x = .ok () ∧ k () = .ok () := by
  cases x with
  | ok u => exact ⟨fun h => ⟨rfl, h⟩, And.right⟩
  | error e => exact ⟨by rintro ⟨⟩, by rintro ⟨⟨⟩, -⟩⟩

@[simp] theorem requirePositive_ok : requirePositive n error = .ok () ↔ 0 < n := by
  unfold requirePositive
  split <;> simp [*]

@[simp] theorem requireAtMost_ok : requireAtMost n bound error = .ok () ↔ n ≤ bound := by
  unfold requireAtMost
  split <;> simp [*]

@[simp] theorem requireSomePositive_ok : requireSomePositive o error = .ok () ↔ ∀ n ∈ o, 0 < n := by
  cases o <;> simp [requireSomePositive]

/-- What `default_pool_size` and `default_fixed_pool_size` make of the available parallelism. -/
def defaultPoolSize (parallelism : Option ℕ) : ℕ := parallelism.getD 1

theorem defaultPoolSize_pos {parallelism : Option ℕ} (h : ∀ n ∈ parallelism, 0 < n) :
    0 < defaultPoolSize parallelism := by
  cases parallelism with
  | none => exact Nat.one_pos
  | some n => exact h n rfl

namespace Fixed

structure FixedThreadPoolBuilder where
  poolSize : ℕ
  queueCapacity : Option ℕ
  stackSize : Option ℕ

namespace FixedThreadPoolBuilder

def default (parallelism : Option ℕ) : FixedThreadPoolBuilder := ⟨defaultPoolSize parallelism, none, none⟩

def validate (b : FixedThreadPoolBuilder) : Checked := do
  requirePositive b.poolSize .zeroPoolSize
  requireSomePositive b.queueCapacity .zeroQueueCapacity
  requireSomePositive b.stackSize .zeroStackSize

theorem validate_ok {b : FixedThreadPoolBuilder} :
    b.validate = .ok () ↔ 0 < b.poolSize ∧ (∀ n ∈ b.queueCapacity, 0 < n) ∧ ∀ n ∈ b.stackSize, 0 < n := by
  simp [validate]

theorem default_ok {parallelism : Option ℕ} (h : ∀ n ∈ parallelism, 0 < n) :
    (default parallelism).validate = .ok () :=
  validate_ok.mpr ⟨defaultPoolSize_pos h, by simp [default], by simp [default]⟩

def config (b : FixedThreadPoolBuilder) (h : b.validate = .ok ()) : FixedThreadPoolConfig where
  poolSize := b.poolSize
  queueCapacity := b.queueCapacity
  poolSize_pos := (validate_ok.mp h).1
  queueCapacity_pos := (validate_ok.mp h).2.1

end FixedThreadPoolBuilder

end Fixed

namespace Dynamic

structure ThreadPoolBuilder where
  corePoolSize : ℕ
  maximumPoolSize : ℕ
  queueCapacity : Option ℕ
  stackSize : Option ℕ
  keepAlive : ℕ
  allowCoreThreadTimeout : Bool
  prestartCoreThreads : Bool

namespace ThreadPoolBuilder

/-- The keep-alive of `DEFAULT_KEEP_ALIVE`, in seconds. -/
def default (parallelism : Option ℕ) : ThreadPoolBuilder where
  corePoolSize := defaultPoolSize parallelism
  maximumPoolSize := defaultPoolSize parallelism
  queueCapacity := none
  stackSize := none
  keepAlive := 60
  allowCoreThreadTimeout := false
  prestartCoreThreads := false

def validate (b : ThreadPoolBuilder) : Checked := do
  requirePositive b.maximumPoolSize .zeroMaximumPoolSize
  requireAtMost b.corePoolSize b.maximumPoolSize
    (.corePoolSizeExceedsMaximum b.corePoolSize b.maximumPoolSize)
  requireSomePositive b.queueCapacity .zeroQueueCapacity
  requireSomePositive b.stackSize .zeroStackSize
  requirePositive b.keepAlive .zeroKeepAlive

theorem validate_ok {b : ThreadPoolBuilder} : b.validate = .ok () ↔
    0 < b.maximumPoolSize ∧ b.corePoolSize ≤ b.maximumPoolSize ∧ (∀ n ∈ b.queueCapacity, 0 < n) ∧
      (∀ n ∈ b.stackSize, 0 < n) ∧ 0 < b.keepAlive := by
  simp [validate]

theorem default_ok {parallelism : Option ℕ} (h : ∀ n ∈ parallelism, 0 < n) :
    (default parallelism).validate = .ok () :=
  validate_ok.mpr ⟨defaultPoolSize_pos h, Nat.le_refl _, by simp [default], by simp [default], by simp [default]⟩

def config (b : ThreadPoolBuilder) (h : b.validate = .ok ()) : ThreadPoolConfig where
  corePoolSize := b.corePoolSize
  maximumPoolSize := b.maximumPoolSize
  queueCapacity := b.queueCapacity
  keepAlive := b.keepAlive
  allowCoreThreadTimeout := b.allowCoreThreadTimeout
  maximumPoolSize_pos := (validate_ok.mp h).1
  corePoolSize_le := (validate_ok.mp h).2.1
  queueCapacity_pos := (validate_ok.mp h).2.2.1
  keepAlive_pos := (validate_ok.mp h).2.2.2.2

end ThreadPoolBuilder

end Dynamic

end ThreadPools
