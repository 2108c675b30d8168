import Mathlib.Tactic

/-! Little-endian words in byte sequences. -/
namespace VentusDriver.Foundation

/-- The number held by the first `n` bytes, least significant byte first. -/
def littleEndian : ℕ → (ℕ → UInt8) → ℕ
  | 0, _ => 0
  | n + 1, f => (f 0).toNat + 256 * littleEndian n fun i => f (i + 1)

/-- Byte `i` of a number, least significant byte first. -/
def byteOf (v i : ℕ) : UInt8 := UInt8.ofNat (v / 256 ^ i)

theorem littleEndian_congr {n : ℕ} {f g : ℕ → UInt8} (h : ∀ i < n, f i = g i) :
    littleEndian n f = littleEndian n g := by
  induction n generalizing f g with
  | zero => rfl
  | succ n ih =>
    simp only [littleEndian, h 0 (Nat.succ_pos n)]
    rw [ih fun i hi => h (i + 1) (by omega)]

@[simp] theorem littleEndian_zeros (n : ℕ) : littleEndian n (fun _ => 0) = 0 := by
  induction n with
  | zero => rfl
  | succ n ih => simp [littleEndian, ih]

theorem littleEndian_lt (n : ℕ) (f : ℕ → UInt8) : littleEndian n f < 256 ^ n := by
  induction n generalizing f with
  | zero => simp [littleEndian]
  | succ n ih =>
    have hlow := (f 0).toNat_lt
    have hrest := ih fun i => f (i + 1)
    rw [littleEndian, pow_succ]
    omega

theorem byteOf_succ (v i : ℕ) : byteOf v (i + 1) = byteOf (v / 256) i := by
  rw [byteOf, byteOf, Nat.div_div_eq_div_mul, pow_succ, Nat.mul_comm]

/-- Storing a number byte by byte and reading it back keeps its value modulo the word size. -/
@[simp] theorem littleEndian_byteOf (n v : ℕ) : littleEndian n (byteOf v) = v % 256 ^ n := by
  induction n generalizing v with
  | zero => simp [littleEndian, Nat.mod_one]
  | succ n ih =>
    have hshift : (fun i => byteOf v (i + 1)) = byteOf (v / 256) := funext (byteOf_succ v)
    have hlow : (byteOf v 0).toNat = v % 256 := by simp [byteOf]
    rw [littleEndian, hshift, ih, hlow, pow_succ, Nat.mul_comm (256 ^ n), Nat.mod_mul]

/-- The bytes of a word are those that it was put together from. -/
theorem byteOf_littleEndian {n j : ℕ} (f : ℕ → UInt8) (hj : j < n) : byteOf (littleEndian n f) j = f j := by
  induction n generalizing f j with
  | zero => omega
  | succ n ih =>
    have hlow := (f 0).toNat_lt
    cases j with
    | zero =>
      rw [byteOf, littleEndian, pow_zero, Nat.div_one]
      apply UInt8.toNat_inj.mp
      rw [UInt8.toNat_ofNat']
      omega
    | succ j =>
      have hrest : littleEndian (n + 1) f / 256 = littleEndian n fun i => f (i + 1) := by
        rw [littleEndian]
        omega
      rw [byteOf_succ, hrest, ih _ (by omega)]

end VentusDriver.Foundation
