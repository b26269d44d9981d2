import Mathlib.Algebra.Group.Nat.Even
import Mathlib.Algebra.Order.Ring.Nat
import Mathlib.Data.BitVec
import Mathlib.Data.Nat.Factorization.Basic

/-!
# Mixing steps on machine words

Multiplication by a unit, rotation and a right shift that is xored in lose nothing. A map
that takes every shift of its argument by some word to a shift of its value does so for
the shift by the highest bit, which is tested at two words.
-/

namespace EquivChecker.WordMixing

variable {w r k : ℕ} {x y d : BitVec w}

theorem mul_injective {p q : BitVec w} (h : p * q = 1#w) : Function.Injective (· * p) := by
  intro x y hxy
  have hq := congrArg (· * q) hxy
  simpa only [BitVec.mul_assoc, h, BitVec.mul_one] using hq

theorem rotateLeft_injective (hr : r < w) : Function.Injective fun x : BitVec w => x.rotateLeft r := by
  have hinv : Function.LeftInverse (fun y : BitVec w => y.rotateRight r) fun x => x.rotateLeft r := by
    intro x
    refine BitVec.eq_of_getLsbD_eq fun i hi => ?_
    rw [BitVec.getLsbD_rotateRight, Nat.mod_eq_of_lt hr]
    by_cases hw : i < w - r
    · have hup : ¬r + i < r := by omega
      have hlt : r + i < w := by omega
      simp [hw, BitVec.getLsbD_rotateLeft, Nat.mod_eq_of_lt hr, hup, hlt, hi]
    · -- the bit has come round to the low end
      have hlow : i - (w - r) < r := by omega
      have hround : w - r + (i - (w - r)) = i := by omega
      simp [hw, BitVec.getLsbD_rotateLeft, Nat.mod_eq_of_lt hr, hlow, hround, hi]
  exact hinv.injective

/-- The difference of two words with the same value is shifted out. -/
theorem xor_shift_injective (hk : 0 < k) : Function.Injective fun x : BitVec w => x ^^^ x >>> k := by
  intro x y hxy
  replace hxy : x ^^^ x >>> k = y ^^^ y >>> k := hxy
  have hbits : ∀ n i, w ≤ i + n → x.getLsbD i = y.getLsbD i := by
    intro n
    induction n with
    | zero =>
      intro i hi
      rw [BitVec.getLsbD_of_ge x i hi, BitVec.getLsbD_of_ge y i hi]
    | succ n ih =>
      intro i hi
      have hbit := congrArg (·.getLsbD i) hxy
      simp only [BitVec.getLsbD_xor, BitVec.getLsbD_ushiftRight, ih (k + i) (by omega)] at hbit
      exact Bool.xor_left_inj.mp hbit
  exact BitVec.eq_of_getLsbD_eq fun i _ => hbits w i (Nat.le_add_left _ _)

/-- Some multiple of a word other than 0 is the highest bit. -/
theorem exists_mul_eq_high (hd : d ≠ 0#w) : ∃ m : ℕ, BitVec.ofNat w m * d = BitVec.ofNat w (2 ^ (w - 1)) := by
  have hpos : d.toNat ≠ 0 := fun h => hd (BitVec.eq_of_toNat_eq h)
  obtain ⟨t, u, ⟨i, rfl⟩, hu⟩ := Nat.exists_eq_two_pow_mul_odd hpos
  have hlt : t < w := by
    have hle : 2 ^ t ≤ d.toNat := by
      rw [hu]
      exact Nat.le_mul_of_pos_right _ (Nat.succ_pos _)
    exact (Nat.pow_lt_pow_iff_right (by decide)).mp (hle.trans_lt d.isLt)
  refine ⟨2 ^ (w - 1 - t), BitVec.eq_of_toNat_eq ?_⟩
  have hhigh : 2 ^ (w - 1 - t) * 2 ^ t = 2 ^ (w - 1) := by
    rw [← pow_add]
    congr 1
    omega
  have hall : 2 ^ (w - 1) * 2 = 2 ^ w := by
    rw [← pow_succ]
    congr 1
    omega
  rw [BitVec.toNat_mul, BitVec.toNat_ofNat, BitVec.toNat_ofNat, Nat.mod_mul_mod, hu, ← Nat.mul_assoc,
    hhigh, Nat.mul_add, ← Nat.mul_assoc, hall, Nat.mul_one, Nat.mul_add_mod]

/-- A map that turns the shift by `d` into a shift turns the one by the highest bit into one. -/
theorem not_shift {f : BitVec w → BitVec w} {c : BitVec w}
    (hhigh : f (BitVec.ofNat w (2 ^ (w - 1))) + f (BitVec.ofNat w (2 ^ (w - 1))) ≠ f 0#w + f 0#w)
    (hd : d ≠ 0#w) : ¬∀ y, f (y + d) = f y + c := by
  intro h
  have hmul : ∀ (m : ℕ) y, f (y + BitVec.ofNat w m * d) = f y + BitVec.ofNat w m * c := by
    intro m
    induction m with
    | zero => simp
    | succ m ih =>
      intro y
      rw [BitVec.ofNat_add, BitVec.add_mul, BitVec.add_mul, ← BitVec.add_assoc, BitVec.one_mul, h, ih,
        BitVec.one_mul, BitVec.add_assoc]
  obtain ⟨m, hm⟩ := exists_mul_eq_high hd
  have hzero := hmul m 0#w
  have hback := hmul m (BitVec.ofNat w (2 ^ (w - 1)))
  have hpos : 0 < w := by
    refine Nat.pos_of_ne_zero fun hw => hd ?_
    subst hw
    exact Subsingleton.elim _ _
  have hall : BitVec.ofNat w (2 ^ (w - 1)) + BitVec.ofNat w (2 ^ (w - 1)) = 0#w := by
    rw [← BitVec.ofNat_add, ← Nat.mul_two, ← pow_succ, Nat.sub_add_cancel hpos]
    apply BitVec.eq_of_toNat_eq
    rw [BitVec.toNat_ofNat, BitVec.toNat_ofNat, Nat.mod_self, Nat.zero_mod]
  rw [hm] at hzero hback
  rw [hall] at hback
  rw [BitVec.zero_add] at hzero
  refine hhigh ?_
  calc f (BitVec.ofNat w (2 ^ (w - 1))) + f (BitVec.ofNat w (2 ^ (w - 1)))
      = f (BitVec.ofNat w (2 ^ (w - 1))) + (f 0#w + BitVec.ofNat w m * c) := by rw [hzero]
    _ = f 0#w + (f (BitVec.ofNat w (2 ^ (w - 1))) + BitVec.ofNat w m * c) := by
      rw [← BitVec.add_assoc, BitVec.add_comm _ (f 0#w), BitVec.add_assoc]
    _ = f 0#w + f 0#w := by rw [← hback]

end EquivChecker.WordMixing
