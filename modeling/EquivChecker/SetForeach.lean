import EquivChecker.SetFamily
import Mathlib.Data.List.Sort
import Mathlib.Tactic.Positivity
import Mathlib.Tactic.Ring

/-!
# Visiting the members of a set

`set_foreach` visits the members in ascending order. The list that it visits is
determined by the membership, whatever calls have built the trie.
-/

namespace EquivChecker.SetTrie

open OwnedHeap

/-- The next digit of a value, below the digits `pre`. -/
def extend (pre : Word) (i : Fin 32) : Word := (pre <<< 5) ||| BitVec.ofNat 32 i.val

def present (n : SetT) : List (Fin 32) := (List.finRange 32).filter (mask_has n.mask)

/-- The values of the trie with root `p` and `k` levels below it, under the digits `pre`. -/
def elements (h : Ptr → Option SetT) : ℕ → Ptr → Word → List Word
  | 0, p, pre => match h p with
    | none => []
    | some n => (present n).map (extend pre)
  | k + 1, p, pre => match h p with
    | none => []
    | some n => (present n).flatMap fun i => elements h k (n.children i) (extend pre i)

variable {s : SetHeap} {h : Ptr → Option SetT} {k fuel : ℕ} {p : Ptr} {F : Set Ptr} {n : SetT}
  {pre v w : Word} {i j : Fin 32}

theorem mem_present : i ∈ present n ↔ n.mask.getLsbD i = true := by
  simp [present, mask_has_eq]

theorem present_sorted (n : SetT) : (present n).Pairwise (· < ·) :=
  (List.pairwise_lt_finRange 32).filter _

theorem load_eq (hn : s.nodes p = some n) : load p s = .ok (n, s) := by
  rw [load, hn]

theorem mapM_eq {α β : Type} {f : α → SetM β} {r : α → β} (l : List α)
    (hf : ∀ a ∈ l, f a s = .ok (r a, s)) : l.mapM f s = .ok (l.map r, s) := by
  induction l with
  | nil => rfl
  | cons a l ih =>
    rw [List.mapM_cons, run_bind (hf a List.mem_cons_self),
      run_bind (ih fun b hb => hf b (List.mem_cons_of_mem a hb))]
    rfl

theorem set_foreach_recurse_eq (ho : Owns s.nodes k p F) (hfuel : k < fuel) (pre : Word) :
    set_foreach_recurse fuel p pre s = .ok (elements s.nodes k p pre, s) := by
  induction k generalizing p F fuel pre with
  | zero =>
    obtain ⟨fuel, rfl⟩ : ∃ m, fuel = m + 1 := ⟨fuel - 1, by omega⟩
    obtain ⟨n, hn, hoff⟩ := ho.node
    rw [set_foreach_recurse, run_bind (load_eq hn)]
    simp only [elements, hn]
    rw [if_neg (by omega)]
    rfl
  | succ k ih =>
    obtain ⟨fuel, rfl⟩ : ∃ m, fuel = m + 1 := ⟨fuel - 1, by omega⟩
    obtain ⟨n, G, hb, hmask, -, rfl⟩ := ho.branch
    have hparts : (present n).mapM (fun i => set_foreach_recurse fuel (n.children i) (extend pre i)) s =
        .ok ((present n).map fun i => elements s.nodes k (n.children i) (extend pre i), s) :=
      mapM_eq (present n) fun i hi =>
        ih (hb.child (hmask i (mem_present.mp hi))) (show k < fuel by omega) _
    rw [set_foreach_recurse, run_bind (load_eq hb.node)]
    simp only [elements, hb.node]
    rw [if_pos hb.offset_pos]
    exact run_bind hparts

/-- There is room for the digits of the values below `pre`. -/
def Room (k : ℕ) (pre : Word) : Prop := pre.toNat * 2 ^ (5 * (k + 1)) < 2 ^ 32

theorem extend_toNat (hroom : Room k pre) (i : Fin 32) :
    (extend pre i).toNat = pre.toNat * 32 + i.val := by
  have hpow : 32 ≤ 2 ^ (5 * (k + 1)) := Nat.pow_le_pow_right (n := 2) (i := 5) (by omega) (by omega)
  have hlt : pre.toNat * 32 < 2 ^ 32 := (Nat.mul_le_mul_left _ hpow).trans_lt hroom
  have hi := i.isLt
  have hshift : pre.toNat <<< 5 % 2 ^ 32 = pre.toNat <<< 5 := by
    apply Nat.mod_eq_of_lt
    rw [Nat.shiftLeft_eq]
    omega
  have hdigit : (BitVec.ofNat 32 i.val).toNat = i.val := by
    rw [BitVec.toNat_ofNat]
    omega
  have hor := Nat.shiftLeft_add_eq_or_of_lt (show i.val < 2 ^ 5 from hi) pre.toNat
  rw [extend, BitVec.toNat_or, BitVec.toNat_shiftLeft, hdigit, hshift, ← hor, Nat.shiftLeft_eq]

theorem Room.extend (hroom : Room (k + 1) pre) (hk : k < 6) (hfits : Fits k i) :
    Room k (extend pre i) := by
  have hi := i.isLt
  have hdigit : 2 ^ (5 * (k + 1 + 1)) = 32 * 2 ^ (5 * (k + 1)) := by
    rw [show 5 * (k + 1 + 1) = 5 + 5 * (k + 1) by omega, pow_add]
    norm_num
  rw [Room, extend_toNat hroom]
  rw [Room, hdigit] at hroom
  rcases Nat.lt_or_eq_of_le (Nat.le_of_lt_succ hk) with hlt | rfl
  · have hall : 2 ^ 32 = 2 ^ (32 - 5 * (k + 1 + 1)) * (32 * 2 ^ (5 * (k + 1))) := by
      rw [← hdigit, ← pow_add]
      congr 1
      omega
    rw [hall] at hroom ⊢
    have hpre := Nat.lt_of_mul_lt_mul_right hroom
    calc (pre.toNat * 32 + i.val) * 2 ^ (5 * (k + 1))
        < (pre.toNat * 32 + 32) * 2 ^ (5 * (k + 1)) := Nat.mul_lt_mul_of_pos_right (by omega) (by positivity)
      _ = (pre.toNat + 1) * (32 * 2 ^ (5 * (k + 1))) := by ring
      _ ≤ _ := Nat.mul_le_mul_right _ hpre
  · have hpre : pre.toNat = 0 := by
      by_contra hpos
      have hone := Nat.mul_le_mul_right (32 * 2 ^ (5 * (5 + 1))) (Nat.one_le_iff_ne_zero.mpr hpos)
      exact absurd (hone.trans_lt hroom) (by norm_num)
    rw [hpre, Nat.zero_mul, Nat.zero_add]
    exact hfits

theorem mem_elements (ho : Owns h k p F) (hk : k ≤ 6) (hroom : Room k pre) :
    v ∈ elements h k p pre ↔ Has h k p v ∧ v.toNat / 2 ^ (5 * (k + 1)) = pre.toNat := by
  induction k generalizing p F pre with
  | zero =>
    obtain ⟨n, hn, -⟩ := ho.node
    have hval := index_val v 0
    simp only [elements, hn, List.mem_map, mem_present, has_zero_iff hn]
    constructor
    · rintro ⟨i, hbit, rfl⟩
      have hi := i.isLt
      rw [extend_toNat hroom] at hval ⊢
      have hindex : index (extend pre i) 0 = i := Fin.ext (by omega)
      rw [hindex]
      exact ⟨hbit, by omega⟩
    · rintro ⟨hbit, hpre⟩
      refine ⟨index v 0, hbit, BitVec.eq_of_toNat_eq ?_⟩
      rw [extend_toNat hroom, hval]
      omega
  | succ k ih =>
    obtain ⟨n, G, hb, hmask, hfits, rfl⟩ := ho.branch
    have hval := index_val v (5 * (k + 1))
    have hdiv : v.toNat / 2 ^ (5 * (k + 1 + 1)) = v.toNat / 2 ^ (5 * (k + 1)) / 32 := by
      rw [Nat.div_div_eq_div_mul, show 5 * (k + 1 + 1) = 5 * (k + 1) + 5 by omega, pow_add]
      rfl
    have hchild : ∀ i : Fin 32, n.mask.getLsbD i = true →
        (v ∈ elements h k (n.children i) (extend pre i) ↔
          Has h k (n.children i) v ∧ v.toNat / 2 ^ (5 * (k + 1)) = pre.toNat * 32 + i.val) := by
      intro i hbit
      rw [ih (hb.child (hmask i hbit)) (by omega) (hroom.extend (by omega) (hfits i hbit)),
        extend_toNat hroom]
    simp only [elements, hb.node, List.mem_flatMap, mem_present, has_succ_iff hb.node, hdiv]
    constructor
    · rintro ⟨i, hbit, hv⟩
      obtain ⟨hhas, hv⟩ := (hchild i hbit).mp hv
      have hi := i.isLt
      have hindex : index v (5 * (k + 1)) = i := Fin.ext (by omega)
      rw [hindex]
      exact ⟨⟨hbit, hhas⟩, by omega⟩
    · rintro ⟨⟨hbit, hhas⟩, hpre⟩
      exact ⟨_, hbit, (hchild _ hbit).mpr ⟨hhas, by omega⟩⟩

theorem elements_sorted (ho : Owns h k p F) (hk : k ≤ 6) (hroom : Room k pre) :
    (elements h k p pre).Pairwise (· < ·) := by
  induction k generalizing p F pre with
  | zero =>
    obtain ⟨n, hn, -⟩ := ho.node
    simp only [elements, hn]
    refine List.pairwise_map.mpr ((present_sorted n).imp fun {i j} hij => ?_)
    rw [BitVec.lt_def, extend_toNat hroom, extend_toNat hroom]
    omega
  | succ k ih =>
    obtain ⟨n, G, hb, hmask, hfits, rfl⟩ := ho.branch
    simp only [elements, hb.node]
    have hroom' : ∀ i ∈ present n, Room k (extend pre i) := fun i hi =>
      hroom.extend (by omega) (hfits i (mem_present.mp hi))
    have hown : ∀ i ∈ present n, Owns h k (n.children i) (G i) := fun i hi =>
      hb.child (hmask i (mem_present.mp hi))
    refine List.pairwise_flatMap.mpr ⟨fun i hi => ih (hown i hi) (by omega) (hroom' i hi), ?_⟩
    refine (present_sorted n).imp_of_mem fun {i j} hi hj hij v hv w hw => ?_
    have hv' := ((mem_elements (hown i hi) (by omega) (hroom' i hi)).mp hv).2
    have hw' := ((mem_elements (hown j hj) (by omega) (hroom' j hj)).mp hw).2
    rw [extend_toNat hroom] at hv' hw'
    rw [BitVec.lt_def]
    refine Nat.lt_of_div_lt_div (c := 2 ^ (5 * (k + 1))) ?_
    omega

theorem room_root : Room 6 0 := by simp [Room]

theorem mem_elements_root (ho : Owns h 6 p F) : v ∈ elements h 6 p 0 ↔ Has h 6 p v := by
  rw [mem_elements ho le_rfl room_root]
  refine and_iff_left ?_
  have hv := v.isLt
  rw [Nat.div_eq_of_lt (by omega)]
  rfl

/-- `set_foreach` visits exactly the members, in ascending order. -/
theorem set_foreach_spec (ho : Owns s.nodes 6 p F) : ∃ l, set_foreach p s = .ok (l, s) ∧
    l.Pairwise (· < ·) ∧ ∀ v, v ∈ l ↔ Has s.nodes 6 p v :=
  ⟨_, set_foreach_recurse_eq ho (by decide) 0, elements_sorted ho le_rfl room_root, fun _ =>
    mem_elements_root ho⟩

/-- A list in ascending order is determined by its members. -/
theorem ascending_unique {l l' : List Word} (hl : l.Pairwise (· < ·)) (hl' : l'.Pairwise (· < ·))
    (hmem : ∀ v, v ∈ l ↔ v ∈ l') : l = l' := by
  have hperm : l.Perm l' := (List.perm_ext_iff_of_nodup (hl.imp fun h => BitVec.ne_of_lt h)
    (hl'.imp fun h => BitVec.ne_of_lt h)).mpr hmem
  exact hperm.eq_of_pairwise (fun a b _ _ hab hba => absurd hab (BitVec.lt_asymm hba)) hl hl'

end EquivChecker.SetTrie
