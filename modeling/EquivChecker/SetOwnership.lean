import EquivChecker.OwnedHeap
import EquivChecker.SetTrie
import EquivChecker.WeakestPre
import Mathlib.Data.Set.Pairwise.Basic
import Mathlib.Order.Disjoint

/-!
# Who owns which nodes of a trie

A trie owns the nodes that its child pointers reach, also those left behind under
cleared mask bits. Its subtrees own disjoint parts. Whether a value is a member
depends only on the nodes under set mask bits.
-/

namespace EquivChecker.SetTrie

open OwnedHeap

section Bits

theorem getLsbD_bit (i j : Fin 32) : (1#32 <<< i.val).getLsbD j.val = decide (i = j) := by
  rw [BitVec.getLsbD_shiftLeft]
  by_cases hij : i = j
  · subst hij
    simp
  · have hne : i.val ≠ j.val := fun h => hij (Fin.ext h)
    have hlt := j.isLt
    simp only [hlt, decide_true, Bool.true_and, BitVec.getLsbD_one, hij, decide_false]
    rcases Nat.lt_or_gt_of_ne hne with h | h
    · have : ¬j.val < i.val := by omega
      have : j.val - i.val ≠ 0 := by omega
      simp [*]
    · simp [h]

theorem and_bit_eq_zero_iff (m : Word) (i : Fin 32) :
    m &&& (1#32 <<< i.val) = 0#32 ↔ m.getLsbD i = false := by
  constructor
  · intro h
    have hbit := congrArg (fun w : Word => w.getLsbD i) h
    simpa [getLsbD_bit] using hbit
  · intro h
    apply BitVec.eq_of_getLsbD_eq
    intro j hj
    rw [BitVec.getLsbD_and, BitVec.getLsbD_zero]
    have hj' := getLsbD_bit i ⟨j, hj⟩
    simp only at hj'
    rw [hj']
    by_cases hij : i = ⟨j, hj⟩
    · have hji : i.val = j := congrArg Fin.val hij
      rw [hji] at h
      simp [h]
    · simp [hij]

theorem mask_has_eq (m : Word) (i : Fin 32) : mask_has m i = m.getLsbD i := by
  cases hm : m.getLsbD i with
  | false => simp [mask_has, (and_bit_eq_zero_iff m i).mpr hm]
  | true =>
    have hne : m &&& (1#32 <<< i.val) ≠ 0#32 := by
      rw [Ne, and_bit_eq_zero_iff, hm]
      simp
    simpa [mask_has] using hne

end Bits

/-- Child `i` of a node with `k + 1` levels below it stands for values of 32 bits. Of the
children of a root only the first four do. -/
def Fits (k : ℕ) (i : Fin 32) : Prop := i.val * 2 ^ (5 * (k + 1)) < 2 ^ 32

/-- The trie with root `p` and `k` levels below it owns the nodes `F`. -/
def Owns (h : Ptr → Option SetT) : ℕ → Ptr → Set Ptr → Prop
  | 0, p, F => p ≠ NULL ∧ (∃ n, h p = some n ∧ n.offset = 0 ∧ ∀ i, n.children i = NULL) ∧ F = {p}
  | k + 1, p, F => p ≠ NULL ∧ ∃ (n : SetT) (G : Fin 32 → Set Ptr),
      h p = some n ∧ n.offset = 5 * (k + 1) ∧
      (∀ i, n.children i = NULL ∧ G i = ∅ ∨ Owns h k (n.children i) (G i)) ∧
      Pairwise (fun i j => Disjoint (G i) (G j)) ∧ (∀ i, p ∉ G i) ∧
      (∀ i : Fin 32, n.mask.getLsbD i = true → n.children i ≠ NULL) ∧
      (∀ i : Fin 32, n.mask.getLsbD i = true → Fits k i) ∧ F = insert p (⋃ i, G i)

/-- `v` is a member of the trie with root `p` and `k` levels below it, as far as the bits of
`v` from these levels tell. -/
def Has (h : Ptr → Option SetT) : ℕ → Ptr → Word → Prop
  | 0, p, v => ∃ n, h p = some n ∧ n.mask.getLsbD (index v 0) = true
  | k + 1, p, v => ∃ n, h p = some n ∧ n.mask.getLsbD (index v (5 * (k + 1))) = true ∧
      Has h k (n.children (index v (5 * (k + 1)))) v

/-- Children are there only under set mask bits. -/
def Tight (h : Ptr → Option SetT) : ℕ → Ptr → Prop
  | 0, _ => True
  | k + 1, p => ∃ n, h p = some n ∧ ∀ i : Fin 32, n.children i ≠ NULL →
      n.mask.getLsbD i = true ∧ Tight h k (n.children i)

/-- At every inner node that both tries have, `y` has all children of `x`. -/
def Covers (h : Ptr → Option SetT) : ℕ → Ptr → Ptr → Prop
  | 0, _, _ => True
  | k + 1, y, x => match h y, h x with
    | some ny, some nx => ∀ i : Fin 32, nx.mask.getLsbD i = true →
        ny.mask.getLsbD i = true ∧ Covers h k (ny.children i) (nx.children i)
    | _, _ => False

/-- A node without children. -/
def Bare (h : Ptr → Option SetT) (p : Ptr) : Prop := ∃ n, h p = some n ∧ ∀ i, n.children i = NULL

variable {h h' h'' : Ptr → Option SetT} {k : ℕ} {p q z : Ptr} {F F' : Set Ptr} {n n' : SetT}
  {G G' : Fin 32 → Set Ptr} {i : Fin 32} {v : Word}

instance : (k : ℕ) → (y x : Ptr) → Decidable (Covers h k y x)
  | 0, _, _ => inferInstanceAs (Decidable True)
  | k + 1, y, x => by
    have : ∀ y x, Decidable (Covers h k y x) := fun y x => instDecidableCovers k y x
    unfold Covers
    split <;> infer_instance

theorem Owns.ne_null (ho : Owns h k p F) : p ≠ NULL := by
  cases k with
  | zero => exact ho.1
  | succ k => exact ho.1

theorem Owns.node (ho : Owns h k p F) : ∃ n, h p = some n ∧ n.offset = 5 * k := by
  cases k with
  | zero =>
    obtain ⟨-, ⟨n, hn, hoff, -⟩, -⟩ := ho
    exact ⟨n, hn, hoff⟩
  | succ k =>
    obtain ⟨-, n, G, hn, hoff, -⟩ := ho
    exact ⟨n, hn, hoff⟩

theorem Owns.root_mem (ho : Owns h k p F) : p ∈ F := by
  cases k with
  | zero =>
    obtain ⟨-, -, rfl⟩ := ho
    exact rfl
  | succ k =>
    obtain ⟨-, n, G, -, -, -, -, -, -, -, rfl⟩ := ho
    exact Set.mem_insert p _

theorem Owns.live (ho : Owns h k p F) : ∀ q ∈ F, Live h q := by
  induction k generalizing p F with
  | zero =>
    obtain ⟨-, ⟨n, hn, -⟩, rfl⟩ := ho
    intro q hq
    rw [Set.mem_singleton_iff.mp hq, Live, hn]
    simp
  | succ k ih =>
    obtain ⟨-, n, G, hn, -, hkids, -, -, -, -, rfl⟩ := ho
    intro q hq
    rcases hq with rfl | hq
    · rw [Live, hn]
      simp
    · obtain ⟨i, hi⟩ := Set.mem_iUnion.mp hq
      rcases hkids i with ⟨-, hempty⟩ | hchild
      · rw [hempty] at hi
        exact hi.elim
      · exact ih hchild q hi

/-- A trie is as it was when its nodes are. -/
theorem Owns.congr (ho : Owns h k p F) (heq : ∀ q ∈ F, h' q = h q) : Owns h' k p F := by
  induction k generalizing p F with
  | zero =>
    obtain ⟨hp, ⟨n, hn, hrest⟩, rfl⟩ := ho
    exact ⟨hp, ⟨n, by rw [heq p rfl, hn], hrest⟩, rfl⟩
  | succ k ih =>
    obtain ⟨hp, n, G, hn, hoff, hkids, hdisj, hroot, hmask, hfits, rfl⟩ := ho
    refine ⟨hp, n, G, by rw [heq p (Set.mem_insert p _), hn], hoff, fun i => ?_, hdisj, hroot, hmask,
      hfits, rfl⟩
    refine (hkids i).imp id fun hchild => ih hchild fun q hq => ?_
    exact heq q (Set.mem_insert_of_mem p (Set.mem_iUnion.mpr ⟨i, hq⟩))

theorem Owns.has_congr (ho : Owns h k p F) (heq : ∀ q ∈ F, h' q = h q) (v : Word) :
    Has h' k p v ↔ Has h k p v := by
  induction k generalizing p F with
  | zero =>
    have hp := heq p ho.root_mem
    simp only [Has, hp]
  | succ k ih =>
    have hp := heq p ho.root_mem
    obtain ⟨-, n, G, hn, -, hkids, -, -, hmask, -, rfl⟩ := ho
    simp only [Has, hp, hn, Option.some.injEq, exists_eq_left']
    refine and_congr_right fun hbit => ?_
    rcases hkids (index v (5 * (k + 1))) with ⟨hnull, -⟩ | hchild
    · exact absurd hnull (hmask _ hbit)
    · exact ih hchild fun q hq =>
        heq q (Set.mem_insert_of_mem p (Set.mem_iUnion.mpr ⟨_, hq⟩))

theorem Tight.child (ht : Tight h (k + 1) p) (hn : h p = some n) (hi : n.children i ≠ NULL) :
    n.mask.getLsbD i = true ∧ Tight h k (n.children i) := by
  obtain ⟨n', hn', hkids⟩ := ht
  cases hn.symm.trans hn'
  exact hkids i hi

theorem Tight.unmarked (ht : Tight h (k + 1) p) (hn : h p = some n) (hi : ¬n.mask.getLsbD i = true) :
    n.children i = NULL := by
  by_contra hne
  exact hi (ht.child hn hne).1

theorem Covers.child {x y : Ptr} {nx ny : SetT} (hc : Covers h (k + 1) y x) (hny : h y = some ny)
    (hnx : h x = some nx) (hi : nx.mask.getLsbD i = true) :
    ny.mask.getLsbD i = true ∧ Covers h k (ny.children i) (nx.children i) := by
  simp only [Covers, hny, hnx] at hc
  exact hc i hi

theorem Bare.child (hp : Bare h p) (hn : h p = some n) (i : Fin 32) : n.children i = NULL := by
  obtain ⟨n', hn', hnull⟩ := hp
  cases hn.symm.trans hn'
  exact hnull i

theorem Bare.tight (hp : Bare h p) : Tight h k p := by
  cases k with
  | zero => trivial
  | succ k =>
    obtain ⟨n, hn, hnull⟩ := hp
    exact ⟨n, hn, fun i hi => absurd (hnull i) hi⟩

theorem Owns.tight_congr (ho : Owns h k p F) (heq : ∀ q ∈ F, h' q = h q) (ht : Tight h k p) :
    Tight h' k p := by
  induction k generalizing p F with
  | zero => trivial
  | succ k ih =>
    have hp := heq p ho.root_mem
    obtain ⟨-, n, G, hn, -, hkids, -, -, -, -, rfl⟩ := ho
    refine ⟨n, hp.trans hn, fun i hi => ?_⟩
    obtain ⟨hbit, hchild⟩ := ht.child hn hi
    refine ⟨hbit, ih ((hkids i).resolve_left fun hnull => hi hnull.1) (fun q hq => ?_) hchild⟩
    exact heq q (Set.mem_insert_of_mem p (Set.mem_iUnion.mpr ⟨i, hq⟩))

theorem Owns.covers_congr {x y : Ptr} {Fx Fy : Set Ptr} (hy : Owns h k y Fy) (hx : Owns h k x Fx)
    (heqy : ∀ q ∈ Fy, h' q = h q) (heqx : ∀ q ∈ Fx, h' q = h q) (hc : Covers h k y x) :
    Covers h' k y x := by
  induction k generalizing x y Fx Fy with
  | zero => trivial
  | succ k ih =>
    have hyroot := heqy y hy.root_mem
    have hxroot := heqx x hx.root_mem
    obtain ⟨-, ny, Gy, hny, -, hkidsy, -, -, hmasky, -, rfl⟩ := hy
    obtain ⟨-, nx, Gx, hnx, -, hkidsx, -, -, hmaskx, -, rfl⟩ := hx
    simp only [Covers, hyroot.trans hny, hxroot.trans hnx]
    intro i hi
    obtain ⟨hbit, hchild⟩ := hc.child hny hnx hi
    refine ⟨hbit, ih ((hkidsy i).resolve_left fun hnull => hmasky i hbit hnull.1)
      ((hkidsx i).resolve_left fun hnull => hmaskx i hi hnull.1) (fun q hq => ?_) (fun q hq => ?_) hchild⟩
    · exact heqy q (Set.mem_insert_of_mem y (Set.mem_iUnion.mpr ⟨i, hq⟩))
    · exact heqx q (Set.mem_insert_of_mem x (Set.mem_iUnion.mpr ⟨i, hq⟩))

theorem has_succ_iff (hn : h p = some n) : Has h (k + 1) p v ↔
    n.mask.getLsbD (index v (5 * (k + 1))) = true ∧
      Has h k (n.children (index v (5 * (k + 1)))) v := by
  simp [Has, hn]

theorem has_zero_iff (hn : h p = some n) : Has h 0 p v ↔ n.mask.getLsbD (index v 0) = true := by
  simp [Has, hn]

/-- A new node is the empty set. -/
theorem owns_mk (hp : p ≠ NULL) (hn : h p = some (set_mk (5 * k))) : Owns h k p {p} := by
  cases k with
  | zero => exact ⟨hp, ⟨_, hn, rfl, fun _ => rfl⟩, rfl⟩
  | succ k =>
    refine ⟨hp, _, fun _ => ∅, hn, rfl, fun _ => .inl ⟨rfl, rfl⟩, fun _ _ _ => Set.disjoint_empty _,
      fun _ => Set.notMem_empty p, fun i hi => ?_, fun i hi => ?_, by simp⟩ <;>
    simp [set_mk] at hi

theorem not_has_mk (hn : h p = some (set_mk (5 * k))) : ¬Has h k p v := by
  cases k with
  | zero =>
    rw [has_zero_iff hn]
    simp [set_mk]
  | succ k =>
    rw [has_succ_iff hn]
    simp [set_mk]

/-- A node `z` with `k + 1` levels below it, whose child `i` owns `G i`. Nothing is said
about its mask. -/
structure Branch (h : Ptr → Option SetT) (k : ℕ) (z : Ptr) (n : SetT) (G : Fin 32 → Set Ptr) :
    Prop where
  ne_null : z ≠ NULL
  node : h z = some n
  offset : n.offset = 5 * (k + 1)
  kids : ∀ i, n.children i = NULL ∧ G i = ∅ ∨ Owns h k (n.children i) (G i)
  disjoint : Pairwise (fun i j => Disjoint (G i) (G j))
  root : ∀ i, z ∉ G i

/-- What a node owns with its children. -/
def foot (z : Ptr) (G : Fin 32 → Set Ptr) : Set Ptr := insert z (⋃ i, G i)

theorem Owns.branch (ho : Owns h (k + 1) p F) : ∃ n G, Branch h k p n G ∧
    (∀ i : Fin 32, n.mask.getLsbD i = true → n.children i ≠ NULL) ∧
    (∀ i : Fin 32, n.mask.getLsbD i = true → Fits k i) ∧ F = foot p G := by
  obtain ⟨hp, n, G, hn, hoff, hkids, hdisj, hroot, hmask, hfits, rfl⟩ := ho
  exact ⟨n, G, ⟨hp, hn, hoff, hkids, hdisj, hroot⟩, hmask, hfits, rfl⟩

theorem Branch.owns (hb : Branch h k z n G)
    (hmask : ∀ i : Fin 32, n.mask.getLsbD i = true → n.children i ≠ NULL)
    (hfits : ∀ i : Fin 32, n.mask.getLsbD i = true → Fits k i) : Owns h (k + 1) z (foot z G) :=
  ⟨hb.ne_null, n, G, hb.node, hb.offset, hb.kids, hb.disjoint, hb.root, hmask, hfits, rfl⟩

theorem Branch.child (hb : Branch h k z n G) (hi : n.children i ≠ NULL) :
    Owns h k (n.children i) (G i) :=
  (hb.kids i).resolve_left fun hnull => hi hnull.1

theorem Branch.live (hb : Branch h k z n G) : ∀ q ∈ foot z G, Live h q := by
  intro q hq
  rcases hq with rfl | hq
  · rw [Live, hb.node]
    simp
  · obtain ⟨i, hi⟩ := Set.mem_iUnion.mp hq
    rcases hb.kids i with ⟨-, hempty⟩ | hchild
    · rw [hempty] at hi
      exact hi.elim
    · exact hchild.live q hi

theorem mem_foot (hq : q ∈ G i) : q ∈ foot z G :=
  Set.mem_insert_of_mem z (Set.mem_iUnion.mpr ⟨i, hq⟩)

end EquivChecker.SetTrie
