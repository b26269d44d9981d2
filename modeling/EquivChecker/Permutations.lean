import EquivChecker.Fault
import Mathlib.Data.List.Permutation
import Mathlib.Data.Nat.Factorial.Basic
import Mathlib.GroupTheory.Perm.Basic

/-!
# Orders of the functions

`permute` writes the arrangements of an array to the rows of a table, swapping entries
and swapping them back. The arrangements are compositions of the array with permutations
of its indices.
-/

namespace EquivChecker.Permutations

variable {α : Type}

def swap (arr : ℕ → α) (a b : ℕ) : ℕ → α :=
  Function.update (Function.update arr a (arr b)) b (arr a)

/-- What `permute` works on: the table, the array, and the number of rows written. -/
structure Tables (α : Type) where
  itl : ℕ → ℕ → α
  arr : ℕ → α
  count : ℕ

/-- Columns 0 to `last` of a row are written. -/
def setRow (last : ℕ) (itl : ℕ → ℕ → α) (row : ℕ) (f : ℕ → α) : ℕ → ℕ → α :=
  Function.update itl row fun i => if i ≤ last then f i else itl row i

/-- `permute`, where the second argument is `last - start`. -/
def permute (last : ℕ) : ℕ → ℕ → Tables α → Tables α
  | 0, _, t => { t with itl := setRow last t.itl t.count t.arr, count := t.count + 1 }
  | d + 1, start, t => (List.range' start (d + 2)).foldl (fun t i =>
      let t := permute last d (start + 1) { t with arr := swap t.arr start i }
      { t with arr := swap t.arr start i }) t

/-- `int fact`, which wraps. -/
def factorial (n : ℕ) : Word :=
  (List.range' 1 n).foldl (fun fact i => fact * BitVec.ofNat 32 i) 1

def find_permutations (itl : ℕ → ℕ → ℕ) : ℕ → ℕ → ℕ → ℕ
  | 0 => itl
  | n + 1 => (permute n n 0 ⟨itl, fun i => i, 0⟩).itl

/-- The rows are allocated filled with zeros. -/
def get_func_permutations (num_funcs : ℕ) : ℕ → ℕ → ℕ :=
  find_permutations (fun _ _ => 0) num_funcs

theorem swap_eq (arr : ℕ → α) (a b : ℕ) : swap arr a b = arr ∘ Equiv.swap a b := by
  funext i
  by_cases hb : i = b
  · simp [swap, hb]
  · by_cases ha : i = a
    · subst ha
      simp [swap, hb]
    · simp [swap, ha, hb, Equiv.swap_apply_of_ne_of_ne]

theorem swap_swap (arr : ℕ → α) (a b : ℕ) : swap (swap arr a b) a b = arr := by
  funext i
  simp [swap_eq]

/-- The permutations of the indices `start` to `start + d`, in the order of the rows. -/
def arrangements : ℕ → ℕ → List (Equiv.Perm ℕ)
  | 0, _ => [1]
  | d + 1, start => (List.range' start (d + 2)).flatMap fun i =>
      (arrangements d (start + 1)).map (Equiv.swap start i * ·)

def setRows (last : ℕ) : List (ℕ → α) → (ℕ → ℕ → α) → ℕ → ℕ → ℕ → α
  | [], itl, _ => itl
  | f :: fs, itl, row => setRows last fs (setRow last itl row f) (row + 1)

/-- The entries of the array in another order. -/
def arranged (arr : ℕ → α) (σ : Equiv.Perm ℕ) : ℕ → α := fun i => arr (σ i)

variable {last d start n : ℕ} {t : Tables α} {σ : Equiv.Perm ℕ}

theorem setRows_append (fs gs : List (ℕ → α)) (itl : ℕ → ℕ → α) (row : ℕ) :
    setRows last (fs ++ gs) itl row = setRows last gs (setRows last fs itl row) (row + fs.length) := by
  induction fs generalizing itl row with
  | nil => rfl
  | cons f fs ih =>
    rw [List.cons_append, setRows, ih, setRows, List.length_cons, Nat.add_assoc, Nat.add_comm 1]

/-- `permute` writes one row for each permutation and restores the array. -/
theorem permute_eq : permute last d start t =
    ⟨setRows last ((arrangements d start).map (arranged t.arr)) t.itl t.count, t.arr,
      t.count + (arrangements d start).length⟩ := by
  induction d generalizing start t with
  | zero => rfl
  | succ d ih =>
    rw [permute, arrangements]
    generalize List.range' start (d + 2) = l
    induction l generalizing t with
    | nil => rfl
    | cons i l ihl =>
      have hcomp : (arrangements d (start + 1)).map (arranged (swap t.arr start i)) =
          ((arrangements d (start + 1)).map (Equiv.swap start i * ·)).map (arranged t.arr) := by
        rw [List.map_map, swap_eq]
        rfl
      rw [List.foldl_cons, ih]
      simp only [swap_swap]
      rw [ihl]
      simp only [hcomp, List.flatMap_cons, List.map_append, setRows_append, List.length_append,
        List.length_map, Nat.add_assoc]

theorem mem_arrangements : σ ∈ arrangements d start ↔ ∀ j, j < start ∨ start + d < j → σ j = j := by
  induction d generalizing start σ with
  | zero =>
    rw [arrangements, List.mem_singleton]
    constructor
    · rintro rfl j _
      rfl
    · intro hfix
      have hstart : σ start = start := by
        by_contra hne
        have hmoved := hfix (σ start) (by omega)
        exact hne (σ.injective hmoved)
      ext j
      by_cases hj : j = start
      · rw [hj, hstart]
        rfl
      · rw [hfix j (by omega)]
        rfl
  | succ d ih =>
    simp only [arrangements, List.mem_flatMap, List.mem_map, List.mem_range'_1]
    constructor
    · rintro ⟨i, hi, τ, hτ, rfl⟩ j hj
      rw [Equiv.Perm.mul_apply, ih.mp hτ j (by omega)]
      exact Equiv.swap_apply_of_ne_of_ne (by omega) (by omega)
    · intro hfix
      have hi : start ≤ σ start ∧ σ start < start + (d + 2) := by
        by_contra hout
        have hmoved := hfix (σ start) (by omega)
        have := σ.injective hmoved
        omega
      refine ⟨σ start, hi, Equiv.swap start (σ start) * σ, ih.mpr fun j hj => ?_, ?_⟩
      · rw [Equiv.Perm.mul_apply]
        by_cases hjs : j = start
        · rw [hjs, Equiv.swap_apply_right]
        · have hσj : σ j = j := hfix j (by omega)
          have hne : j ≠ σ start := fun h => hjs (σ.injective (hσj.trans h))
          rw [hσj, Equiv.swap_apply_of_ne_of_ne hjs hne]
      · rw [← mul_assoc, Equiv.swap_mul_self, one_mul]

theorem nodup_arrangements (d start : ℕ) : (arrangements d start).Nodup := by
  induction d generalizing start with
  | zero => exact List.nodup_singleton 1
  | succ d ih =>
    rw [arrangements, List.nodup_flatMap]
    refine ⟨fun i _ => (ih (start + 1)).map (mul_right_injective _), ?_⟩
    refine (List.nodup_range' (s := start) (n := d + 2)).imp fun {i j} hij => ?_
    -- the first entry tells the blocks apart
    have hfirst : ∀ i, ∀ σ ∈ (arrangements d (start + 1)).map (Equiv.swap start i * ·), σ start = i := by
      intro i σ hσ
      obtain ⟨τ, hτ, rfl⟩ := List.mem_map.mp hσ
      rw [Equiv.Perm.mul_apply, mem_arrangements.mp hτ start (by omega), Equiv.swap_apply_left]
    intro σ hi hj
    exact hij ((hfirst i σ hi).symm.trans (hfirst j σ hj))

theorem length_arrangements (d start : ℕ) : (arrangements d start).length = (d + 1).factorial := by
  induction d generalizing start with
  | zero => rfl
  | succ d ih => simp [arrangements, ih, Nat.factorial_succ (d + 1), List.length_flatMap]

theorem setRows_of_lt (fs : List (ℕ → α)) (itl : ℕ → ℕ → α) {row r : ℕ} (h : r < row) :
    setRows last fs itl row r = itl r := by
  induction fs generalizing itl row with
  | nil => rfl
  | cons f fs ih => rw [setRows, ih _ (by omega), setRow, Function.update_of_ne (by omega)]

/-- The first columns of some rows of a table. -/
def rows (itl : ℕ → ℕ → α) (row count n : ℕ) : List (List α) :=
  (List.range' row count).map fun r => (List.range n).map (itl r)

theorem rows_setRows (fs : List (ℕ → α)) (itl : ℕ → ℕ → α) (row : ℕ) :
    rows (setRows last fs itl row) row fs.length (last + 1) =
      fs.map fun f => (List.range (last + 1)).map f := by
  induction fs generalizing itl row with
  | nil => rfl
  | cons f fs ih =>
    have hfirst : (List.range (last + 1)).map (setRows last fs (setRow last itl row f) (row + 1) row) =
        (List.range (last + 1)).map f := by
      refine List.map_congr_left fun i hi => ?_
      rw [setRows_of_lt _ _ (by omega), setRow, Function.update_self,
        if_pos (Nat.le_of_lt_succ (List.mem_range.mp hi))]
    rw [rows, List.length_cons, List.range'_succ, List.map_cons, setRows, hfirst, List.map_cons, ← ih]
    rfl

theorem setRows_other (fs : List (ℕ → α)) (itl : ℕ → ℕ → α) {row r i : ℕ}
    (h : r < row ∨ row + fs.length ≤ r ∨ last < i) : setRows last fs itl row r i = itl r i := by
  induction fs generalizing itl row with
  | nil => rfl
  | cons f fs ih =>
    rw [List.length_cons] at h
    rw [setRows, ih _ (by omega), setRow]
    by_cases hr : r = row
    · subst hr
      rw [Function.update_self, if_neg (by omega)]
    · rw [Function.update_of_ne hr]

/-- The rows that `permute` writes. -/
theorem rows_permute : rows (permute last d start t).itl t.count (d + 1).factorial (last + 1) =
    (arrangements d start).map fun σ => (List.range (last + 1)).map (arranged t.arr σ) := by
  have hrows := @rows_setRows _ last ((arrangements d start).map (arranged t.arr)) t.itl t.count
  rw [List.length_map, length_arrangements, List.map_map] at hrows
  rw [permute_eq]
  exact hrows

theorem arrangement_lt (hσ : σ ∈ arrangements d start) (j : ℕ) :
    start ≤ σ j ∧ σ j < start + (d + 1) ↔ start ≤ j ∧ j < start + (d + 1) := by
  have hfix := mem_arrangements.mp hσ
  constructor
  · intro hj
    by_contra hout
    rw [hfix j (by omega)] at hj
    exact hout hj
  · intro hj
    by_contra hout
    have hmoved := hfix (σ j) (by omega)
    have := σ.injective hmoved
    omega

/-- The indices from `start` on are exchanged among themselves. -/
theorem map_range'_perm (hσ : σ ∈ arrangements d start) :
    ((List.range' start (d + 1)).map σ).Perm (List.range' start (d + 1)) := by
  have hnodup : (List.range' start (d + 1)).Nodup := List.nodup_range'
  refine (List.perm_ext_iff_of_nodup (hnodup.map σ.injective) hnodup).mpr fun j => ?_
  simp only [List.mem_map, List.mem_range'_1]
  constructor
  · rintro ⟨i, hi, rfl⟩
    exact (arrangement_lt hσ i).mpr hi
  · intro hj
    refine ⟨σ.symm j, (arrangement_lt hσ _).mp ?_, σ.apply_symm_apply j⟩
    rwa [σ.apply_symm_apply]

theorem row_arranged (hσ : σ ∈ arrangements d start) (arr : ℕ → α) :
    (List.range (start + d + 1)).map (arranged arr σ) =
      (List.range start).map arr ++ ((List.range' start (d + 1)).map σ).map arr := by
  have hsplit : List.range (start + d + 1) = List.range start ++ List.range' start (d + 1) := by
    rw [List.range_eq_range', List.range_eq_range', Nat.add_assoc, ← List.range'_append_1, Nat.zero_add]
  rw [hsplit, List.map_append, List.map_map]
  congr 1
  refine List.map_congr_left fun j hj => ?_
  rw [arranged, mem_arrangements.mp hσ j (.inl (List.mem_range.mp hj))]

/-- The entries before `start` stay, and those from `start` on take every order, once each. -/
theorem rows_permute_perm (hlast : last = start + d)
    (hinj : ∀ i ≤ last, ∀ j ≤ last, t.arr i = t.arr j → i = j) :
    (rows (permute last d start t).itl t.count (d + 1).factorial (last + 1)).Nodup ∧
    (rows (permute last d start t).itl t.count (d + 1).factorial (last + 1)).Perm
      (((List.range' start (d + 1)).map t.arr).permutations.map ((List.range start).map t.arr ++ ·)) := by
  have hle : ∀ σ ∈ arrangements d start, ∀ j ≤ last, σ j ≤ last := by
    intro σ hσ j hj
    by_cases hlow : j < start
    · rw [mem_arrangements.mp hσ j (.inl hlow)]
      omega
    · have := (arrangement_lt hσ j).mpr (by omega)
      omega
  have hnodup : (rows (permute last d start t).itl t.count (d + 1).factorial (last + 1)).Nodup := by
    rw [rows_permute]
    refine (List.nodup_map_iff_inj_on (nodup_arrangements d start)).mpr fun σ hσ τ hτ heq => ?_
    ext j
    by_cases hj : j ≤ last
    · have hentry := List.map_inj_left.mp heq j (List.mem_range.mpr (Nat.lt_succ_of_le hj))
      exact hinj _ (hle σ hσ j hj) _ (hle τ hτ j hj) hentry
    · rw [mem_arrangements.mp hσ j (by omega), mem_arrangements.mp hτ j (by omega)]
  refine ⟨hnodup, (List.subperm_of_subset hnodup ?_).perm_of_length_le ?_⟩
  · intro row hrow
    rw [rows_permute, hlast] at hrow
    obtain ⟨σ, hσ, rfl⟩ := List.mem_map.mp hrow
    rw [row_arranged hσ]
    exact List.mem_map_of_mem (List.mem_permutations.mpr ((map_range'_perm hσ).map t.arr))
  · rw [List.length_map, List.length_permutations, List.length_map, List.length_range', rows,
      List.length_map, List.length_range']

/-- Every order of the functions is written exactly once. -/
theorem find_permutations_perm (itl : ℕ → ℕ → ℕ) (n : ℕ) :
    (rows (find_permutations itl (n + 1)) 0 (n + 1).factorial (n + 1)).Perm
      (List.range (n + 1)).permutations := by
  have hrows := (rows_permute_perm (t := ⟨itl, fun i => i, 0⟩) (Nat.zero_add n).symm
    fun i _ j _ heq => heq).2
  rw [find_permutations, List.range_eq_range']
  simpa using hrows

theorem factorial_toNat (hn : n.factorial < 2 ^ 31) : (factorial n).toNat = n.factorial := by
  have hfold : ∀ n, n.factorial < 2 ^ 31 → factorial n = BitVec.ofNat 32 n.factorial := by
    intro n
    induction n with
    | zero => exact fun _ => rfl
    | succ n ih =>
      intro hn
      have hle : n.factorial ≤ (n + 1).factorial := Nat.factorial_le (Nat.le_succ n)
      have hprev := ih (by omega)
      rw [factorial] at hprev ⊢
      rw [List.range'_1_concat, List.foldl_append, hprev, Nat.factorial_succ, Nat.mul_comm,
        BitVec.ofNat_mul, Nat.add_comm 1]
      rfl
  rw [hfold n hn, BitVec.toNat_ofNat]
  omega

/-- A call wrote every arrangement once, to consecutive rows, and restored the array. -/
structure Permuted (last start : ℕ) (t t' : Tables α) : Prop where
  once : (rows t'.itl t.count (last - start + 1).factorial (last + 1)).Nodup
  every : (rows t'.itl t.count (last - start + 1).factorial (last + 1)).Perm
    (((List.range' start (last - start + 1)).map t.arr).permutations.map
      ((List.range start).map t.arr ++ ·))
  other : ∀ row i, row < t.count ∨ t.count + (last - start + 1).factorial ≤ row ∨ last < i →
    t'.itl row i = t.itl row i
  count_eq : t'.count = t.count + (last - start + 1).factorial
  arr_eq : t'.arr = t.arr

theorem permute_permuted (hle : start ≤ last)
    (hinj : ∀ i ≤ last, ∀ j ≤ last, t.arr i = t.arr j → i = j) :
    Permuted last start t (permute last (last - start) start t) := by
  have hlast : last = start + (last - start) := by omega
  obtain ⟨honce, hevery⟩ := rows_permute_perm hlast hinj
  refine ⟨honce, hevery, fun row i hout => ?_, ?_, ?_⟩
  · rw [permute_eq]
    exact setRows_other _ _ (by rwa [List.length_map, length_arrangements])
  · rw [permute_eq, length_arrangements]
  · rw [permute_eq]

/-- The orders of the functions fill the table row by row. -/
structure AllOrders (itl itl' : ℕ → ℕ → ℕ) (n : ℕ) : Prop where
  factorial_eq : (factorial n).toNat = n.factorial
  once : (rows itl' 0 (factorial n).toNat n).Nodup
  every : (rows itl' 0 (factorial n).toNat n).Perm (List.range n).permutations
  other : ∀ row i, (factorial n).toNat ≤ row ∨ n ≤ i → itl' row i = itl row i

theorem find_permutations_all (itl : ℕ → ℕ → ℕ) (hn : 0 < n) (hfit : n.factorial < 2 ^ 31) :
    AllOrders itl (find_permutations itl n) n := by
  have hfact := factorial_toNat hfit
  obtain ⟨k, rfl⟩ := Nat.exists_eq_add_one.mpr hn
  have hevery := find_permutations_perm itl k
  have hcall := permute_permuted (t := ⟨itl, fun i => i, 0⟩) (Nat.zero_le k) fun i _ j _ heq => heq
  refine ⟨hfact, ?_, ?_, fun row i hout => ?_⟩
  · rw [hfact]
    exact hevery.nodup_iff.mpr (List.nodup_permutations _ List.nodup_range)
  · rw [hfact]
    exact hevery
  · rw [hfact] at hout
    exact hcall.other row i (by simp only [Nat.sub_zero]; omega)

/-- From every start index on, and for the table of all functions, every order is written once. -/
theorem orders_written_once :
    (∀ (last start : ℕ) (t : Tables α), start ≤ last →
      (∀ i ≤ last, ∀ j ≤ last, t.arr i = t.arr j → i = j) →
      Permuted last start t (permute last (last - start) start t)) ∧
    ∀ (itl : ℕ → ℕ → ℕ) (n : ℕ), 0 < n → n.factorial < 2 ^ 31 →
      AllOrders itl (find_permutations itl n) n :=
  ⟨fun _ _ _ hle hinj => permute_permuted hle hinj, fun itl _ hn hfit => find_permutations_all itl hn hfit⟩

theorem orders_written_once_three :
    Permuted 2 1 ⟨fun _ _ => 0, fun i => 5 * i, 4⟩ (permute 2 1 1 ⟨fun _ _ => 0, fun i => 5 * i, 4⟩) ∧
    AllOrders (fun _ _ => 0) (find_permutations (fun _ _ => 0) 3) 3 :=
  ⟨orders_written_once.1 2 1 ⟨fun _ _ => 0, fun i => 5 * i, 4⟩ (by decide)
      fun i _ j _ heq => Nat.eq_of_mul_eq_mul_left (by decide) heq,
    (orders_written_once (α := ℕ)).2 (fun _ _ => 0) 3 (by decide) (by decide)⟩

end EquivChecker.Permutations
