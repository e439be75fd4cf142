import Mathlib.Data.Nat.Init
import Mathlib.Data.Nat.Bitwise

/-! # A flag and a counter in one machine word

The high bit of a word of `n + 1` bits is a flag and the other bits are a counter.
An increment that stays below `2 ^ n` carries nothing into the flag, a decrement of a
positive counter borrows nothing from it, and setting the flag keeps the counter.
-/
namespace ThreadPools.Interleaving.PackedWord
variable {n : ℕ}

def flagBit (n : ℕ) : BitVec (n + 1) := 1#(n + 1) <<< n

def countMask (n : ℕ) : BitVec (n + 1) := flagBit n - 1#(n + 1)

def flag (x : BitVec (n + 1)) : Bool := decide (x &&& flagBit n ≠ 0#(n + 1))

def count (x : BitVec (n + 1)) : ℕ := (x &&& countMask n).toNat

theorem toNat_flagBit : (flagBit n).toNat = 2 ^ n := by
  rw [flagBit, ← BitVec.twoPow_eq, BitVec.toNat_twoPow_of_lt (Nat.lt_succ_self n)]

theorem toNat_one : (1#(n + 1)).toNat = 1 := by
  rw [BitVec.toNat_ofNat, Nat.mod_eq_of_lt (Nat.one_lt_two_pow (Nat.succ_ne_zero n))]

theorem toNat_countMask : (countMask n).toNat = 2 ^ n - 1 := by
  have hle : 1#(n + 1) ≤ flagBit n := by
    rw [BitVec.le_def, toNat_flagBit, toNat_one]
    exact Nat.one_le_two_pow
  rw [countMask, BitVec.toNat_sub_of_le hle, toNat_flagBit, toNat_one]

variable (x : BitVec (n + 1))

theorem count_eq : count x = x.toNat % 2 ^ n := by
  rw [count, BitVec.toNat_and, toNat_countMask, Nat.and_two_pow_sub_one_eq_mod]

theorem count_lt : count x < 2 ^ n := by
  rw [count_eq]
  exact Nat.mod_lt _ (Nat.two_pow_pos n)

theorem flag_eq : flag x = decide (2 ^ n ≤ x.toNat) := by
  have hmsb : x.getLsbD n = decide (2 ^ n ≤ x.toNat) := by
    have h := x.msb_eq_decide
    rwa [BitVec.msb_eq_getLsbD_last] at h
  have hne : BitVec.twoPow (n + 1) n ≠ 0#(n + 1) := by
    intro h
    have ht := congrArg BitVec.toNat h
    rw [BitVec.toNat_twoPow_of_lt (Nat.lt_succ_self n)] at ht
    exact absurd ht (Nat.two_pow_pos n).ne'
  rw [flag, flagBit, ← BitVec.twoPow_eq, BitVec.and_twoPow, hmsb]
  by_cases h : 2 ^ n ≤ x.toNat
  · simp [h, hne]
  · simp [h]

/-- The two parts make up the word. -/
theorem toNat_eq : x.toNat = 2 ^ n * (flag x).toNat + count x := by
  have hlt := x.isLt
  rw [Nat.pow_succ] at hlt
  rw [count_eq, flag_eq]
  by_cases h : 2 ^ n ≤ x.toNat
  · have hmod : x.toNat % 2 ^ n = x.toNat - 2 ^ n := by
      rw [Nat.mod_eq_sub_mod h, Nat.mod_eq_of_lt (by omega)]
    rw [hmod, decide_eq_true h, Bool.toNat_true]
    omega
  · rw [Nat.mod_eq_of_lt (by omega), decide_eq_false h, Bool.toNat_false]
    omega

/-- A word is known from its parts. -/
theorem parts {x : BitVec (n + 1)} {b : Bool} {k : ℕ} (h : x.toNat = 2 ^ n * b.toNat + k) (hk : k < 2 ^ n) :
    flag x = b ∧ count x = k := by
  have hx := toNat_eq x
  have hlt := count_lt x
  cases hb : b <;> cases hf : flag x <;> simp only [hb, hf, Bool.toNat_true, Bool.toNat_false] at h hx
  all_goals first | exact ⟨rfl, by omega⟩ | omega

theorem add_one (h : count x + 1 < 2 ^ n) : flag (x + 1#(n + 1)) = flag x ∧ count (x + 1#(n + 1)) = count x + 1 := by
  refine parts ?_ h
  have hx := toNat_eq x
  have hle : 2 ^ n * (flag x).toNat ≤ 2 ^ n := by
    rw [← Nat.mul_one (2 ^ n), Nat.mul_assoc]
    exact Nat.mul_le_mul_left _ (by simpa using Bool.toNat_le _)
  have hpow : 2 ^ (n + 1) = 2 ^ n + 2 ^ n := by rw [Nat.pow_succ]; omega
  rw [BitVec.toNat_add, toNat_one, Nat.mod_eq_of_lt (by omega)]
  omega

theorem sub_one (h : 0 < count x) : flag (x - 1#(n + 1)) = flag x ∧ count (x - 1#(n + 1)) + 1 = count x := by
  have hx := toNat_eq x
  have hlt := count_lt x
  have hle : 1#(n + 1) ≤ x := by
    rw [BitVec.le_def, toNat_one]
    omega
  have hs : (x - 1#(n + 1)).toNat = 2 ^ n * (flag x).toNat + (count x - 1) := by
    rw [BitVec.toNat_sub_of_le hle, toNat_one]
    omega
  obtain ⟨hf, hc⟩ := parts hs (by omega)
  exact ⟨hf, by omega⟩

theorem or_flag : flag (x ||| flagBit n) = true ∧ count (x ||| flagBit n) = count x := by
  refine parts ?_ (count_lt x)
  rw [BitVec.toNat_or, toNat_flagBit, toNat_eq x]
  have hlt := count_lt x
  cases flag x with
  | false =>
    have h := Nat.two_pow_add_eq_or_of_lt hlt 1
    rw [Nat.mul_one] at h
    rw [Bool.toNat_false, Bool.toNat_true, Nat.mul_zero, Nat.zero_add, Nat.mul_one, h, Nat.lor_comm]
  | true =>
    have h := Nat.two_pow_add_eq_or_of_lt hlt 1
    rw [Nat.mul_one] at h
    rw [Bool.toNat_true, Nat.mul_one, h, Nat.lor_comm, ← Nat.lor_assoc, Nat.or_self]

end ThreadPools.Interleaving.PackedWord
