import Mathlib.Data.BitVec

/-!
# Bit fields

A field of a word is a range of its bits. Words that hold one field each are joined with
bitwise or; as long as the ranges are disjoint, every field can be read again.
-/

namespace BitField

variable {w n k lo lo' : ℕ}

/-- The word with a value in one of its fields. -/
def place (w lo : ℕ) (v : BitVec n) : BitVec w := v.setWidth w <<< lo

theorem getLsbD_place (v : BitVec n) (i : ℕ) :
    (place w lo v).getLsbD i = (decide (i < w) && decide (lo ≤ i) && v.getLsbD (i - lo)) := by
  rw [place, BitVec.getLsbD_shiftLeft, BitVec.getLsbD_setWidth]
  by_cases hw : i < w
  · by_cases hlo : lo ≤ i
    · have hlt : i - lo < w := by omega
      simp [hw, hlo, hlt, Nat.not_lt.mpr hlo]
    · simp [hlo, Nat.lt_of_not_le hlo]
  · simp [hw]

/-- A field holds what was placed in it. -/
theorem extract_place (h : lo + n ≤ w) (v : BitVec n) : (place w lo v).extractLsb' lo n = v := by
  refine BitVec.eq_of_getLsbD_eq fun i hi => ?_
  rw [BitVec.getLsbD_extractLsb', getLsbD_place]
  simp [hi, show lo + i < w by omega]

/-- A field is read by a shift and a mask. -/
theorem shift_mask (x : BitVec w) (lo : ℕ) (hn : n ≤ w) :
    x >>> lo &&& BitVec.ofNat w (2 ^ n - 1) = (x.extractLsb' lo n).setWidth w := by
  have hmask : 2 ^ n - 1 < 2 ^ w := by
    have := Nat.pow_le_pow_right (show 0 < 2 by decide) hn
    have := Nat.two_pow_pos n
    omega
  have hlt : (x.extractLsb' lo n).toNat < 2 ^ w :=
    lt_of_lt_of_le (x.extractLsb' lo n).isLt (Nat.pow_le_pow_right (by decide) hn)
  refine BitVec.eq_of_toNat_eq ?_
  rw [BitVec.toNat_and, BitVec.toNat_ushiftRight, BitVec.toNat_ofNat, Nat.mod_eq_of_lt hmask,
    Nat.and_two_pow_sub_one_eq_mod, BitVec.toNat_setWidth, Nat.mod_eq_of_lt hlt, BitVec.extractLsb'_toNat]

/-- A field is empty where another one was placed. -/
theorem extract_place_of_disjoint (h : lo' + k ≤ lo ∨ lo + n ≤ lo') (v : BitVec n) :
    (place w lo v).extractLsb' lo' k = 0#k := by
  refine BitVec.eq_of_getLsbD_eq fun i hi => ?_
  rw [BitVec.getLsbD_extractLsb', getLsbD_place, BitVec.getLsbD_zero]
  rcases h with h | h
  · simp [show ¬lo ≤ lo' + i by omega]
  · have hout : v.getLsbD (lo' + i - lo) = false := BitVec.getLsbD_of_ge v _ (by omega)
    simp [hout]

end BitField
