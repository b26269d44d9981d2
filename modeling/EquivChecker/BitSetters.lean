import EquivChecker.BitFields
import EquivChecker.Fault

/-!
# The bit functions of libpi

They are given by what they do to every bit of a word. A range is set to a value that fits.
-/

namespace EquivChecker

structure BitSetters where
  bit_set : Word → ℕ → Word
  bit_clr : Word → ℕ → Word
  bit_isset : Word → ℕ → Word
  bits_get : Word → ℕ → ℕ → Word
  bits_set : Word → ℕ → ℕ → Word → Word
  bits_clr : Word → ℕ → ℕ → Word
  bit_set_eq : ∀ x bit, bit < 32 → ∀ i < 32,
    (bit_set x bit).getLsbD i = (decide (i = bit) || x.getLsbD i)
  bit_clr_eq : ∀ x bit, bit < 32 → ∀ i < 32,
    (bit_clr x bit).getLsbD i = (!decide (i = bit) && x.getLsbD i)
  bit_isset_eq : ∀ x bit, bit < 32 → bit_isset x bit = if x.getLsbD bit then 1 else 0
  bits_get_eq : ∀ x lb ub, lb ≤ ub → ub < 32 →
    bits_get x lb ub = (x.extractLsb' lb (ub - lb + 1)).setWidth 32
  bits_set_eq : ∀ x lb ub v, lb ≤ ub → ub < 32 → v.toNat < 2 ^ (ub - lb + 1) → ∀ i < 32,
    (bits_set x lb ub v).getLsbD i = if lb ≤ i ∧ i ≤ ub then v.getLsbD (i - lb) else x.getLsbD i
  bits_clr_eq : ∀ x lb ub, lb ≤ ub → ub < 32 → ∀ i < 32,
    (bits_clr x lb ub).getLsbD i = if lb ≤ i ∧ i ≤ ub then false else x.getLsbD i

variable {lib : BitSetters} {x : Word} {bit : ℕ}

/-- `n` ones from bit `lo` on. -/
def ones (n lo : ℕ) : Word := BitVec.ofNat 32 (2 ^ n - 1) <<< lo

theorem getLsbD_ones {n lo i : ℕ} (hi : i < 32) :
    (ones n lo).getLsbD i = decide (lo ≤ i ∧ i < lo + n) := by
  rw [ones, BitVec.getLsbD_shiftLeft, BitVec.getLsbD_ofNat, Nat.testBit_two_pow_sub_one]
  by_cases hlo : lo ≤ i
  · simp [hi, hlo, show i - lo < 32 by omega, Nat.not_lt.mpr hlo, Nat.sub_lt_iff_lt_add' hlo]
  · simp [hlo, Nat.lt_of_not_le hlo]

theorem extract_bits (x : Word) (lb : ℕ) {ub : ℕ} (hub : ub < 32) :
    x >>> lb &&& BitVec.ofNat 32 (2 ^ (ub - lb + 1) - 1) = (x.extractLsb' lb (ub - lb + 1)).setWidth 32 :=
  BitField.shift_mask x lb (by omega)

/-- The functions as libpi defines them. -/
def BitSetters.libpi : BitSetters where
  bit_set x bit := x ||| ones 1 bit
  bit_clr x bit := x &&& ~~~ones 1 bit
  bit_isset x bit := x >>> bit &&& 1
  bits_get x lb ub := x >>> lb &&& BitVec.ofNat 32 (2 ^ (ub - lb + 1) - 1)
  bits_set x lb ub v := (x &&& ~~~ones (ub - lb + 1) lb) ||| v <<< lb
  bits_clr x lb ub := x &&& ~~~ones (ub - lb + 1) lb
  bit_set_eq x bit _ i hi := by
    rw [BitVec.getLsbD_or, getLsbD_ones hi, Bool.or_comm]
    congr 1
    exact decide_eq_decide.mpr (by omega)
  bit_clr_eq x bit _ i hi := by
    rw [BitVec.getLsbD_and, BitVec.getLsbD_not, getLsbD_ones hi, Bool.and_comm, decide_eq_true hi,
      Bool.true_and]
    congr 2
    exact decide_eq_decide.mpr (by omega)
  bit_isset_eq x bit hbit := by
    have h := BitField.shift_mask (n := 1) x bit (by decide)
    refine h.trans (BitVec.eq_of_getLsbD_eq fun i hi => ?_)
    rw [BitVec.getLsbD_setWidth, BitVec.getLsbD_extractLsb']
    cases i with
    | zero => cases hx : x.getLsbD bit <;> simp_all
    | succ i => cases x.getLsbD bit <;> simp
  bits_get_eq x lb _ _ hub := extract_bits x lb hub
  bits_set_eq x lb ub v hle hub hv i hi := by
    rw [BitVec.getLsbD_or, BitVec.getLsbD_and, BitVec.getLsbD_not, getLsbD_ones hi,
      BitVec.getLsbD_shiftLeft, decide_eq_true hi, Bool.true_and, Bool.true_and]
    rcases Nat.lt_or_ge i lb with hlt | hge
    · rw [if_neg (by omega), decide_eq_false (by omega), decide_eq_true hlt]
      simp
    · rcases Nat.lt_or_ge ub i with hgt | hle'
      · have hout : v.getLsbD (i - lb) = false :=
          Nat.testBit_lt_two_pow (lt_of_lt_of_le hv (Nat.pow_le_pow_right (by decide) (by omega)))
        rw [if_neg (by omega), decide_eq_false (by omega), hout]
        simp
      · rw [if_pos ⟨hge, hle'⟩, decide_eq_true (by omega), decide_eq_false (by omega)]
        simp
  bits_clr_eq x lb ub hle hub i hi := by
    rw [BitVec.getLsbD_and, BitVec.getLsbD_not, getLsbD_ones hi, decide_eq_true hi, Bool.true_and]
    by_cases h : lb ≤ i ∧ i ≤ ub
    · rw [if_pos h, decide_eq_true (by omega), Bool.not_true, Bool.and_false]
    · rw [if_neg h, decide_eq_false (by omega), Bool.not_false, Bool.and_true]

theorem BitSetters.isset_iff (h : bit < 32) : lib.bit_isset x bit ≠ 0 ↔ x.getLsbD bit = true := by
  rw [lib.bit_isset_eq x bit h]
  cases x.getLsbD bit <;> simp

end EquivChecker
