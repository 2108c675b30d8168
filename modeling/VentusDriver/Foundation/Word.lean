import Mathlib.Tactic

/-! Fixed-width unsigned arithmetic on natural numbers, and the masks and shifts that select
a window of bits, as division and remainder. -/
namespace VentusDriver.Foundation

/-- The value kept by a 64-bit unsigned variable. -/
def u64 (n : ℕ) : ℕ := n % 2 ^ 64

/-- The value kept by a 32-bit unsigned variable. -/
def u32 (n : ℕ) : ℕ := n % 2 ^ 32

/-- Subtraction of 64-bit unsigned values. -/
def sub64 (a b : ℕ) : ℕ := u64 (a + (2 ^ 64 - u64 b))

/-- Bitwise complement of a 64-bit unsigned value. -/
def not64 (n : ℕ) : ℕ := 2 ^ 64 - 1 - u64 n

theorem u64_of_lt {n : ℕ} (h : n < 2 ^ 64) : u64 n = n := Nat.mod_eq_of_lt h

theorem u64_lt (n : ℕ) : u64 n < 2 ^ 64 := Nat.mod_lt _ (by positivity)

theorem sub64_of_le {a b : ℕ} (ha : a < 2 ^ 64) (h : b ≤ a) : sub64 a b = a - b := by
  rw [sub64, u64_of_lt (by omega : b < 2 ^ 64), u64]
  omega

/-- Masking a window of `m` bits above the lowest `k`. -/
theorem and_window (n k m : ℕ) :
    n &&& (2 ^ m - 1) <<< k = n / 2 ^ k % 2 ^ m * 2 ^ k := by
  rw [← Nat.shiftRight_eq_div_pow, ← Nat.and_two_pow_sub_one_eq_mod, ← Nat.shiftLeft_eq]
  apply Nat.eq_of_testBit_eq
  intro i
  by_cases h : k ≤ i
  · simp [h, Bool.and_comm]
  · simp [h]

/-- Disjoint windows are joined by addition. -/
theorem mul_or_of_lt {k b : ℕ} (a : ℕ) (h : b < 2 ^ k) : a * 2 ^ k ||| b = a * 2 ^ k + b := by
  rw [← Nat.shiftLeft_eq, Nat.shiftLeft_add_eq_or_of_lt h]

/-- Clearing the lowest `k` bits of a 64-bit value. -/
theorem and_not64_low {n k : ℕ} (hn : n < 2 ^ 64) (hk : k ≤ 64) :
    n &&& not64 (2 ^ k - 1) = n / 2 ^ k * 2 ^ k := by
  have hpow : 2 ^ k ≤ 2 ^ 64 := Nat.pow_le_pow_right (by norm_num) hk
  have hpos : 0 < 2 ^ k := by positivity
  have hsplit : 2 ^ (64 - k) * 2 ^ k = 2 ^ 64 := by rw [← pow_add]; congr 1; omega
  have hmask : not64 (2 ^ k - 1) = (2 ^ (64 - k) - 1) <<< k := by
    rw [not64, u64_of_lt (by omega), Nat.shiftLeft_eq, Nat.sub_mul, hsplit]
    omega
  have hlt : n / 2 ^ k < 2 ^ (64 - k) := by
    apply Nat.div_lt_of_lt_mul
    rw [Nat.mul_comm, hsplit]
    exact hn
  rw [hmask, and_window, Nat.mod_eq_of_lt hlt]

end VentusDriver.Foundation
