import Mathlib.Algebra.Order.Ring.Nat
import Mathlib.Data.Nat.Bitwise
import Mathlib.Logic.Function.Basic

/-!
# Little-endian words in a byte memory

Addresses are natural numbers. A 32-bit word occupies four bytes, lowest first. A store
changes what is read at the same address and nothing that is read four bytes apart.
-/

namespace EquivChecker

abbrev Bytes := ℕ → BitVec 8

namespace Bytes
variable {m m' : Bytes} {a b v x : ℕ}

def read (m : Bytes) (a : ℕ) : ℕ :=
  (m a).toNat + 2 ^ 8 * (m (a + 1)).toNat + 2 ^ 16 * (m (a + 2)).toNat + 2 ^ 24 * (m (a + 3)).toNat

def write (m : Bytes) (a v : ℕ) : Bytes := fun x =>
  if a ≤ x ∧ x < a + 4 then BitVec.ofNat 8 (v / 2 ^ (8 * (x - a))) else m x

/-- `memcpy` between ranges that do not overlap. -/
def copy (m : Bytes) (dst src n : ℕ) : Bytes := fun x =>
  if dst ≤ x ∧ x < dst + n then m (src + (x - dst)) else m x

theorem read_lt (m : Bytes) (a : ℕ) : read m a < 2 ^ 32 := by
  have h₀ := (m a).isLt
  have h₁ := (m (a + 1)).isLt
  have h₂ := (m (a + 2)).isLt
  have h₃ := (m (a + 3)).isLt
  unfold read
  omega

theorem read_congr (h : ∀ x, a ≤ x → x < a + 4 → m' x = m x) : read m' a = read m a := by
  unfold read
  rw [h a (by omega) (by omega), h (a + 1) (by omega) (by omega), h (a + 2) (by omega) (by omega),
    h (a + 3) (by omega) (by omega)]

theorem write_other (h : x < a ∨ a + 4 ≤ x) : write m a v x = m x :=
  if_neg (by omega)

theorem read_write_same (m : Bytes) (a : ℕ) (hv : v < 2 ^ 32) : read (write m a v) a = v := by
  have hbyte : ∀ i < 4, (write m a v (a + i)).toNat = v / 2 ^ (8 * i) % 2 ^ 8 := by
    intro i hi
    rw [write, if_pos (by omega), BitVec.toNat_ofNat, Nat.add_sub_cancel_left]
  have h₀ := hbyte 0 (by omega)
  rw [Nat.add_zero] at h₀
  unfold read
  rw [h₀, hbyte 1 (by omega), hbyte 2 (by omega), hbyte 3 (by omega)]
  omega

theorem read_write_disjoint (h : a + 4 ≤ b ∨ b + 4 ≤ a) : read (write m a v) b = read m b :=
  read_congr fun _ _ _ => write_other (by omega)

theorem copy_other {dst src n : ℕ} (h : x < dst ∨ dst + n ≤ x) : copy m dst src n x = m x :=
  if_neg (by omega)

theorem copy_at {dst src n i : ℕ} (h : i < n) : copy m dst src n (dst + i) = m (src + i) := by
  rw [copy, if_pos (by omega), Nat.add_sub_cancel_left]

end Bytes

section Masks
variable {x w k : ℕ}

/-- A mask of high bits rounds down to a multiple of a power of two. -/
theorem and_high (hx : x < 2 ^ w) (hk : k ≤ w) : x &&& (2 ^ w - 2 ^ k) = x / 2 ^ k * 2 ^ k := by
  have hmask : 2 ^ w - 2 ^ k = 2 ^ k * (2 ^ (w - k) - 1) := by
    rw [Nat.mul_sub, ← Nat.pow_add, Nat.add_sub_cancel' hk, Nat.mul_one]
  apply Nat.eq_of_testBit_eq
  intro i
  rw [hmask, Nat.testBit_and, Nat.testBit_two_pow_mul, Nat.mul_comm (x / 2 ^ k), Nat.testBit_two_pow_mul,
    Nat.testBit_two_pow_sub_one, Nat.testBit_div_two_pow]
  by_cases hik : k ≤ i
  · rw [Nat.sub_add_cancel hik]
    by_cases hi : i < w
    · have hlt : i - k < w - k := by omega
      simp [hik, hlt]
    · have hzero : x.testBit i = false :=
        Nat.testBit_lt_two_pow (hx.trans_le (Nat.pow_le_pow_right (by decide) (by omega)))
      simp [hzero]
  · simp [hik]

end Masks

end EquivChecker
