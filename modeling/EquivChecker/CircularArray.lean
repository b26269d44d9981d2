import Mathlib.Data.List.Basic
import Mathlib.Logic.Function.Iterate

/-!
# Stretches of a circular array

Places are numbers below `n`, and the last is followed by the first. A stretch is given by its
first place and the place behind its last one, so that it never has all `n` places.
-/

namespace CircularArray

variable {α : Type} {buf : ℕ → α} {n i j k l : ℕ} {a : α}

def next (n i : ℕ) : ℕ := if i + 1 = n then 0 else i + 1

/-- How many places are from `i` up to `j`. -/
def extent (n i j : ℕ) : ℕ := if i ≤ j then j - i else n + j - i

/-- The values at `k` places from `i` on. -/
def window (buf : ℕ → α) (n : ℕ) : ℕ → ℕ → List α
  | _, 0 => []
  | i, k + 1 => buf i :: window buf n (next n i) k

/-- The values from `i` up to `j`. -/
def stretch (buf : ℕ → α) (n i j : ℕ) : List α := window buf n i (extent n i j)

theorem next_lt (hi : i < n) : next n i < n := by
  unfold next
  split_ifs <;> omega

theorem next_inj (hi : i < n) (hj : j < n) (h : next n i = next n j) : i = j := by
  unfold next at h
  split_ifs at h <;> omega

theorem extent_lt (hi : i < n) (hj : j < n) : extent n i j < n := by
  unfold extent
  split_ifs <;> omega

theorem extent_self (n i : ℕ) : extent n i i = 0 := by
  rw [extent, if_pos (Nat.le_refl i), Nat.sub_self]

theorem extent_eq_zero (hi : i < n) : extent n i j = 0 ↔ i = j := by
  unfold extent
  split_ifs <;> omega

/-- All places but one are in the stretch when its end is next to its start. -/
theorem next_eq_iff (hi : i < n) (hj : j < n) : next n j = i ↔ extent n i j = n - 1 := by
  unfold next extent
  split_ifs <;> omega

theorem extent_next_right (hi : i < n) (hj : j < n) (h : next n j ≠ i) :
    extent n i (next n j) = extent n i j + 1 := by
  unfold next at h ⊢
  unfold extent
  split_ifs at h ⊢ <;> omega

theorem extent_next_left (hi : i < n) (hj : j < n) (h : i ≠ j) : extent n i j = extent n (next n i) j + 1 := by
  unfold next extent
  split_ifs <;> omega

theorem iterate_next_lt (hi : i < n) (k : ℕ) : (next n)^[k] i < n := by
  induction k generalizing i with
  | zero => exact hi
  | succ k ih => exact ih (next_lt hi)

theorem extent_iterate_next (hi : i < n) (hj : j < n) (hk : k ≤ extent n i j) :
    extent n ((next n)^[k] i) j = extent n i j - k := by
  induction k generalizing i with
  | zero => rfl
  | succ k ih =>
    have hne : i ≠ j := by
      rintro rfl
      rw [extent_self] at hk
      omega
    have hstep := extent_next_left hi hj hne
    rw [Function.iterate_succ_apply, ih (next_lt hi) (by omega)]
    omega

theorem iterate_next_extent (hi : i < n) (hj : j < n) : (next n)^[extent n i j] i = j := by
  have h := extent_iterate_next hi hj (Nat.le_refl _)
  rw [Nat.sub_self] at h
  exact (extent_eq_zero (iterate_next_lt hi _)).mp h

theorem iterate_next_ne (hi : i < n) (hj : j < n) (hk : k < extent n i j) : (next n)^[k] i ≠ j := by
  intro heq
  have h := extent_iterate_next hi hj (Nat.le_of_lt hk)
  rw [heq, extent_self] at h
  omega

theorem length_window (buf : ℕ → α) (n i k : ℕ) : (window buf n i k).length = k := by
  induction k generalizing i with
  | zero => rfl
  | succ k ih => rw [window, List.length_cons, ih]

theorem window_last (buf : ℕ → α) (n i k : ℕ) :
    window buf n i (k + 1) = window buf n i k ++ [buf ((next n)^[k] i)] := by
  induction k generalizing i with
  | zero => rfl
  | succ k ih => rw [window, ih, window, List.cons_append, Function.iterate_succ_apply]

/-- A value outside of the window. -/
theorem window_update (h : ∀ l < k, (next n)^[l] i ≠ j) (a : α) :
    window (Function.update buf j a) n i k = window buf n i k := by
  induction k generalizing i with
  | zero => rfl
  | succ k ih =>
    have hi : i ≠ j := h 0 (Nat.succ_pos k)
    rw [window, window, Function.update_of_ne hi, ih fun l hl => h (l + 1) (Nat.succ_lt_succ hl)]

theorem length_stretch (buf : ℕ → α) (n i j : ℕ) : (stretch buf n i j).length = extent n i j :=
  length_window buf n i _

theorem stretch_eq_nil (hi : i < n) : stretch buf n i j = [] ↔ i = j := by
  rw [← List.length_eq_zero_iff, length_stretch, extent_eq_zero hi]

/-- The place behind a stretch is not in it. -/
theorem stretch_update (hi : i < n) (hj : j < n) (a : α) :
    stretch (Function.update buf j a) n i j = stretch buf n i j :=
  window_update (fun _ hl => iterate_next_ne hi hj hl) a

theorem stretch_append (hi : i < n) (hj : j < n) (h : next n j ≠ i) :
    stretch buf n i (next n j) = stretch buf n i j ++ [buf j] := by
  rw [stretch, extent_next_right hi hj h, window_last, iterate_next_extent hi hj]
  rfl

theorem stretch_cons (hi : i < n) (hj : j < n) (h : i ≠ j) :
    stretch buf n i j = buf i :: stretch buf n (next n i) j := by
  rw [stretch, extent_next_left hi hj h]
  rfl

end CircularArray
