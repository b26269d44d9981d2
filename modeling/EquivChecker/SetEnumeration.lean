import EquivChecker.SetSharing
import EquivChecker.Verdict
import Mathlib.Algebra.BigOperators.Group.Finset.Basic
import Mathlib.Order.Interval.Finset.Nat

/-!
# What is seen of a set

`set_foreach` passes the members to a handler, in ascending order, and returns their
number, which is below 2^32 as the nodes lie in a 32-bit address space. So what the
handlers of `hash_mem` and `print_mem` see depends only on the membership.
-/

namespace EquivChecker.SetTrie

open OwnedHeap Verdict

section Code

variable {σ : Type} (handler : Word → σ → σ)

/-- `set_foreach_recurse`, with the handler and what its argument points to. -/
def set_foreach_recurse_with : ℕ → Ptr → σ → Word → SetM (σ × Word)
  | 0, _, _, _ => fail .spins
  | fuel + 1, s, arg, pre => do
    let node ← load s
    if 0 < node.offset then
      (List.finRange 32).foldlM (fun (arg, n) i => do
        if mask_has node.mask i then
          let (arg, m) ← set_foreach_recurse_with fuel (node.children i) arg
            ((pre <<< 5) ||| BitVec.ofNat 32 i.val)
          pure (arg, n + m)
        else pure (arg, n)) (arg, 0)
    else
      (List.finRange 32).foldlM (fun (arg, n) i => do
        if mask_has node.mask i then
          let v := (pre <<< 5) ||| BitVec.ofNat 32 i.val
          pure (handler v arg, n + 1)
        else pure (arg, n)) (arg, 0)

def set_foreach_with (s : Ptr) (arg : σ) : SetM (σ × Word) :=
  set_foreach_recurse_with handler levels s arg 0

end Code

def set_cardinality_el (_ : Word) (arg : Unit) : Unit := arg

def set_cardinality (s : Ptr) : SetM Word := do
  let (_, n) ← set_foreach_with set_cardinality_el s ()
  pure n

def set_empty (s : Ptr) : SetM Word := do
  let n ← set_cardinality s
  pure (if n = 0 then 1 else 0)

/-- Adds the address and the byte there to what was printed. -/
def print_mem_value (mem : Mem) (v : Word) (out : List (Word × BitVec 8)) : List (Word × BitVec 8) :=
  out ++ [(v, mem v)]

/-- The lines and the hash that are printed. -/
def print_mem (hash : List (BitVec 8) → Word) (set : Ptr) (mem : Mem) :
    SetM (List (Word × BitVec 8) × Word) := do
  let (out, _) ← set_foreach_with (print_mem_value mem) set []
  let h ← hash_mem hash set mem
  pure (out, h)

/-- Addresses of nodes, of 136 bytes each, that do not overlap in a 32-bit address space. -/
def Spaced (l : List ℕ) : Prop :=
  l.Pairwise (fun p q : ℕ => p + 136 ≤ q ∨ q + 136 ≤ p) ∧ ∀ p ∈ l, p + 136 ≤ 2 ^ 32

instance (l : List ℕ) : Decidable (Spaced l) :=
  inferInstanceAs (Decidable (_ ∧ _))

variable {σ : Type} {handler : Word → σ → σ} {s t : SetHeap} {h : Ptr → Option SetT} {k fuel : ℕ}
  {p q : Ptr} {F : Set Ptr} {n : SetT} {pre : Word} {B : Set Word}

section Foreach

/-- A loop over the bits of a mask, which passes the values `E i` to the handler at bit `i`. -/
theorem foreach_loop (handler : Word → σ → σ) {m : Word} {E : Fin 32 → List Word}
    {body : σ × Word → Fin 32 → SetM (σ × Word)}
    (hbody : ∀ i arg n, mask_has m i = true → body (arg, n) i s =
      .ok (((E i).foldl (fun arg v => handler v arg) arg, n + BitVec.ofNat 32 (E i).length), s))
    (hskip : ∀ i arg n, mask_has m i = false → body (arg, n) i s = .ok ((arg, n), s))
    (todo : List (Fin 32)) (arg : σ) (n : Word) : todo.foldlM body (arg, n) s =
      .ok ((((todo.filter (mask_has m)).flatMap E).foldl (fun arg v => handler v arg) arg,
        n + BitVec.ofNat 32 ((todo.filter (mask_has m)).flatMap E).length), s) := by
  induction todo generalizing arg n with
  | nil =>
    change Except.ok ((arg, n), s) = Except.ok ((arg, n + 0#32), s)
    rw [BitVec.add_zero]
  | cons i todo ih =>
    rw [List.foldlM_cons]
    cases hi : mask_has m i with
    | true =>
      rw [run_bind (hbody i arg n hi), ih, List.filter_cons_of_pos hi, List.flatMap_cons,
        List.foldl_append, List.length_append, BitVec.ofNat_add, BitVec.add_assoc]
    | false =>
      rw [run_bind (hskip i arg n hi), ih, List.filter_cons_of_neg (by simp [hi])]

theorem set_foreach_recurse_with_eq (handler : Word → σ → σ) (ho : Owns s.nodes k p F) (hfuel : k < fuel)
    (arg : σ) (pre : Word) :
    set_foreach_recurse_with handler fuel p arg pre s =
      .ok (((elements s.nodes k p pre).foldl (fun arg v => handler v arg) arg,
        BitVec.ofNat 32 (elements s.nodes k p pre).length), s) := by
  induction k generalizing p F fuel arg pre with
  | zero =>
    obtain ⟨fuel, rfl⟩ : ∃ m, fuel = m + 1 := ⟨fuel - 1, by omega⟩
    obtain ⟨n, hn, hoff⟩ := ho.node
    rw [set_foreach_recurse_with, run_bind (load_eq hn), if_neg (by omega)]
    simp only [elements, hn]
    rw [List.map_eq_flatMap]
    refine (foreach_loop handler (m := n.mask) (E := fun i => [extend pre i]) ?_ ?_ _ arg 0#32).trans ?_
    · intro i arg m hi
      simp only [if_pos hi]
      rfl
    · intro i arg m hi
      simp only [hi]
      rfl
    · rw [BitVec.zero_add]
      rfl
  | succ k ih =>
    obtain ⟨fuel, rfl⟩ : ∃ m, fuel = m + 1 := ⟨fuel - 1, by omega⟩
    obtain ⟨n, G, hb, hmask, -, rfl⟩ := ho.branch
    rw [set_foreach_recurse_with, run_bind (load_eq hb.node), if_pos hb.offset_pos]
    simp only [elements, hb.node]
    refine (foreach_loop handler (m := n.mask)
      (E := fun i => elements s.nodes k (n.children i) (extend pre i)) ?_ ?_ _ arg 0#32).trans ?_
    · intro i arg m hi
      have hchild := hb.child (hmask i (by rw [← mask_has_eq, hi]))
      simp only [if_pos hi]
      exact run_bind (ih hchild (by omega) arg (extend pre i))
    · intro i arg m hi
      simp only [hi]
      rfl
    · rw [BitVec.zero_add]
      rfl

end Foreach

section Count

theorem length_flatMap_filter_le {α β γ : Type} {a b : α → Bool} {f : α → List β} {g : α → List γ}
    {c : ℕ} (l : List α) (hle : ∀ x, a x = true → b x = true ∧ (f x).length ≤ c * (g x).length) :
    ((l.filter a).flatMap f).length ≤ c * ((l.filter b).flatMap g).length := by
  induction l with
  | nil => simp
  | cons x l ih =>
    by_cases ha : a x = true
    · obtain ⟨hb, hx⟩ := hle x ha
      rw [List.filter_cons_of_pos ha, List.filter_cons_of_pos hb, List.flatMap_cons, List.flatMap_cons,
        List.length_append, List.length_append, Nat.mul_add]
      exact Nat.add_le_add hx ih
    · rw [List.filter_cons_of_neg ha]
      refine ih.trans (Nat.mul_le_mul_left c ?_)
      by_cases hb : b x = true
      · rw [List.filter_cons_of_pos hb, List.flatMap_cons, List.length_append]
        omega
      · rw [List.filter_cons_of_neg hb]

/-- A node has at most 32 members of its own. -/
theorem Owns.length_elements (ho : Owns h k p F) (hfuel : k < fuel) (pre : Word) :
    (elements h k p pre).length ≤ 32 * (freed h fuel p).length := by
  induction k generalizing p F fuel pre with
  | zero =>
    obtain ⟨fuel, rfl⟩ : ∃ m, fuel = m + 1 := ⟨fuel - 1, by omega⟩
    obtain ⟨n, hn, -⟩ := ho.node
    have hlen : (present n).length ≤ 32 := by
      have hle := List.length_filter_le (mask_has n.mask) (List.finRange 32)
      rwa [List.length_finRange] at hle
    rw [freed_cons hn, List.length_append, List.length_singleton]
    simp only [elements, hn, List.length_map]
    omega
  | succ k ih =>
    obtain ⟨fuel, rfl⟩ : ∃ m, fuel = m + 1 := ⟨fuel - 1, by omega⟩
    obtain ⟨n, G, hb, hmask, -, rfl⟩ := ho.branch
    rw [freed_cons hb.node, List.length_append]
    simp only [elements, hb.node]
    refine (length_flatMap_filter_le _ fun i hi => ?_).trans (Nat.mul_le_mul_left 32 (Nat.le_add_right _ _))
    have hne := hmask i (by rw [← mask_has_eq, hi])
    exact ⟨by simpa using hne, ih (hb.child hne) (by omega) _⟩

theorem Spaced.length_le {l : List ℕ} (hl : Spaced l) : l.length * 136 ≤ 2 ^ 32 := by
  obtain ⟨hpairs, hend⟩ := hl
  have hnodup : l.Nodup := hpairs.imp fun {a b} hab => by
    rintro rfl
    omega
  have hsym : Std.Symm fun p q : ℕ => p + 136 ≤ q ∨ q + 136 ≤ p := ⟨fun _ _ => Or.symm⟩
  have hdisj : ∀ a ∈ l.toFinset, ∀ b ∈ l.toFinset, a ≠ b →
      Disjoint (Finset.Ico a (a + 136)) (Finset.Ico b (b + 136)) := by
    intro a ha b hb hne
    have hab := hpairs.forall (List.mem_toFinset.mp ha) (List.mem_toFinset.mp hb) hne
    refine Finset.disjoint_left.mpr fun x hx hx' => ?_
    rw [Finset.mem_Ico] at hx hx'
    omega
  have hcard := Finset.card_biUnion hdisj
  simp only [Nat.card_Ico, Nat.add_sub_cancel_left, Finset.sum_const, smul_eq_mul,
    List.toFinset_card_of_nodup hnodup] at hcard
  have hsub : l.toFinset.biUnion (fun a => Finset.Ico a (a + 136)) ⊆ Finset.range (2 ^ 32) := by
    refine Finset.biUnion_subset.mpr fun a ha x hx => ?_
    have hlast := hend a (List.mem_toFinset.mp ha)
    rw [Finset.mem_Ico] at hx
    exact Finset.mem_range.mpr (hx.2.trans_le hlast)
  have hle := Finset.card_le_card hsub
  rwa [hcard, Finset.card_range] at hle

end Count

/-- `l` is what is seen of a set with the members `B`. -/
structure Enumerates (s : SetHeap) (p : Ptr) (B : Set Word) (l : List Word) : Prop where
  ascending : l.Pairwise (· < ·)
  members : ∀ v, v ∈ l ↔ v ∈ B
  lookup : ∀ v, set_lookup levels p v s = .ok (if v ∈ l then 1 else 0, s)
  foreach : ∀ (σ : Type) (handler : Word → σ → σ) (arg : σ), set_foreach_with handler p arg s =
    .ok ((l.foldl (fun arg v => handler v arg) arg, BitVec.ofNat 32 l.length), s)
  bounded : Spaced (freed s.nodes levels p) → l.length < 2 ^ 32
  cardinality : set_cardinality p s = .ok (BitVec.ofNat 32 l.length, s)
  empty : l.length < 2 ^ 32 → set_empty p s = .ok (if l = [] then 1 else 0, s)
  hash_mem : ∀ hash mem, hash_mem hash p mem s = .ok (hash (l.map mem), s)
  print_mem : ∀ hash mem, print_mem hash p mem s = .ok ((l.map fun v => (v, mem v), hash (l.map mem)), s)

/-- Handlers see the same addresses in the same order in two sets. -/
structure SeenAlike (s : SetHeap) (p : Ptr) (t : SetHeap) (q : Ptr) : Prop where
  foreach : ∀ (σ : Type) (handler : Word → σ → σ) (arg : σ), ∃ r,
    set_foreach_with handler p arg s = .ok (r, s) ∧ set_foreach_with handler q arg t = .ok (r, t)
  hash_mem : ∀ hash mem, ∃ r, hash_mem hash p mem s = .ok (r, s) ∧ hash_mem hash q mem t = .ok (r, t)
  print_mem : ∀ hash mem, ∃ r, print_mem hash p mem s = .ok (r, s) ∧ print_mem hash q mem t = .ok (r, t)

theorem foldl_print_mem_value (mem : Mem) (l : List Word) (out : List (Word × BitVec 8)) :
    l.foldl (fun out v => print_mem_value mem v out) out = out ++ l.map fun v => (v, mem v) := by
  induction l generalizing out with
  | nil => exact (List.append_nil out).symm
  | cons v l ih =>
    rw [List.foldl_cons, ih, print_mem_value, List.append_assoc]
    rfl

theorem enumerates (ho : Owns s.nodes 6 p F) (hB : ∀ v, Has s.nodes 6 p v ↔ v ∈ B) :
    ∃ l, Enumerates s p B l := by
  have hfuel : 6 < levels := by decide
  have hmem : ∀ v, v ∈ elements s.nodes 6 p 0 ↔ Has s.nodes 6 p v := fun v => mem_elements_root ho
  have hcard : set_cardinality p s = .ok (BitVec.ofNat 32 (elements s.nodes 6 p 0).length, s) :=
    run_bind (set_foreach_recurse_with_eq set_cardinality_el ho hfuel () 0)
  have hsorted := elements_sorted ho le_rfl room_root
  have hforeach : ∀ (σ : Type) (handler : Word → σ → σ) (arg : σ), set_foreach_with handler p arg s =
      .ok (((elements s.nodes 6 p 0).foldl (fun arg v => handler v arg) arg,
        BitVec.ofNat 32 (elements s.nodes 6 p 0).length), s) :=
    fun σ handler arg => set_foreach_recurse_with_eq handler ho hfuel arg 0
  have hhash : ∀ hash mem, hash_mem hash p mem s = .ok (hash ((elements s.nodes 6 p 0).map mem), s) :=
    fun hash mem => hash_mem_eq ho hsorted (fun v => (hmem v).symm) mem
  refine ⟨elements s.nodes 6 p 0, hsorted, fun v => (hmem v).trans (hB v), fun v => ?_, hforeach,
    fun hspaced => ?_, hcard, fun hlt => ?_, hhash, fun hash mem => ?_⟩
  · obtain ⟨r, hrun, hin, hout⟩ := set_lookup_spec ho hfuel v
    rw [hrun]
    by_cases hv : v ∈ elements s.nodes 6 p 0
    · rw [if_pos hv, hin ((hmem v).mp hv)]
    · rw [if_neg hv, hout (mt (hmem v).mpr hv)]
  · have hnodes := hspaced.length_le
    have hmembers := ho.length_elements hfuel 0
    omega
  · refine (run_bind hcard).trans ?_
    have hzero : BitVec.ofNat 32 (elements s.nodes 6 p 0).length = 0 ↔ elements s.nodes 6 p 0 = [] := by
      rw [← List.length_eq_zero_iff, ← BitVec.toNat_inj, BitVec.toNat_ofNat, Nat.mod_eq_of_lt hlt]
      rfl
    simp only [hzero]
    rfl
  · refine (run_bind (hforeach _ (print_mem_value mem) [])).trans ((run_bind (hhash hash mem)).trans ?_)
    rw [foldl_print_mem_value]
    rfl

theorem Enumerates.seenAlike {l l' : List Word} (hl : Enumerates s p B l) (hl' : Enumerates t q B l') :
    SeenAlike s p t q := by
  have hsame : l' = l := ascending_unique hl'.ascending hl.ascending fun v =>
    (hl'.members v).trans (hl.members v).symm
  subst hsame
  exact ⟨fun σ handler arg => ⟨_, hl.foreach σ handler arg, hl'.foreach σ handler arg⟩,
    fun hash mem => ⟨_, hl.hash_mem hash mem, hl'.hash_mem hash mem⟩,
    fun hash mem => ⟨_, hl.print_mem hash mem, hl'.print_mem hash mem⟩⟩

namespace SetState

variable {S T : SetState} {cs cs' : List SetCall} {s' : SetHeap} {ptr ptr' : ℕ → Ptr} {y z : ℕ}

theorem replay_enumerates (hS : replay (fun _ _ => True) cs ⟨s, ptr, []⟩ = some S) (hz : z ∈ S.live) :
    ∃ l, Enumerates S.heap (S.ptr z) (SetCall.meaningAll (fun _ => ∅) cs z) l := by
  obtain ⟨F, hr⟩ := represents_replay (S := ⟨s, ptr, []⟩) (represents_nil s ptr _) hS
  exact enumerates (hr.owns z hz) (hr.members z hz)

/-- Every set that calls have built is enumerated by its members, and sets with the same members
are seen alike. -/
theorem sets_enumerated (hS : replay (fun _ _ => True) cs ⟨s, ptr, []⟩ = some S)
    (hT : replay (fun _ _ => True) cs' ⟨s', ptr', []⟩ = some T) (hz : z ∈ S.live) (hy : y ∈ T.live) :
    (∃ l, Enumerates S.heap (S.ptr z) (SetCall.meaningAll (fun _ => ∅) cs z) l) ∧
      (SetCall.meaningAll (fun _ => ∅) cs z = SetCall.meaningAll (fun _ => ∅) cs' y →
        SeenAlike S.heap (S.ptr z) T.heap (T.ptr y)) := by
  obtain ⟨l, hl⟩ := replay_enumerates hS hz
  obtain ⟨l', hl'⟩ := replay_enumerates hT hy
  refine ⟨⟨l, hl⟩, fun heq => ?_⟩
  rw [← heq] at hl'
  exact hl.seenAlike hl'

def oneByOne : List SetCall := [.op (.alloc 0), .op (.insert 0 62), .op (.insert 0 5)]

def asUnion : List SetCall :=
  [.op (.alloc 0), .op (.insert 0 5), .op (.alloc 1), .op (.insert 1 62), .op (.alloc 2),
    .op (.union 2 0 1)]

theorem sets_enumerated_union : ∃ S T l,
    replay (fun _ _ => True) oneByOne ⟨⟨fun _ => none, List.range' 1024 50 136⟩, fun _ => NULL, []⟩ =
      some S ∧
    replay (fun _ _ => True) asUnion ⟨⟨fun _ => none, List.range' 4096 50 136⟩, fun _ => NULL, []⟩ =
      some T ∧
    Enumerates S.heap (S.ptr 0) {5, 62} l ∧ l.length < 2 ^ 32 ∧
    SeenAlike S.heap (S.ptr 0) T.heap (T.ptr 2) := by
  have hone : (replay (fun _ _ => True) oneByOne
      ⟨⟨fun _ => none, List.range' 1024 50 136⟩, fun _ => NULL, []⟩).map (fun S =>
        decide (0 ∈ S.live ∧ Spaced (freed S.heap.nodes levels (S.ptr 0)))) = some true := by
    decide +kernel
  have hunion : (replay (fun _ _ => True) asUnion
      ⟨⟨fun _ => none, List.range' 4096 50 136⟩, fun _ => NULL, []⟩).map (fun T =>
        decide (2 ∈ T.live)) = some true := by
    decide +kernel
  obtain ⟨S, hS, hzero⟩ := Option.map_eq_some_iff.mp hone
  obtain ⟨T, hT, htwo⟩ := Option.map_eq_some_iff.mp hunion
  obtain ⟨hzero, hspaced⟩ := of_decide_eq_true hzero
  obtain ⟨⟨l, hl⟩, halike⟩ := sets_enumerated hS hT hzero (of_decide_eq_true htwo)
  have hmembers : SetCall.meaningAll (fun _ => ∅) oneByOne 0 = {5, 62} := by
    simp [oneByOne, SetCall.meaningAll, SetCall.meaning, SetOp.dst, SetOp.meaning]
  have hsame : SetCall.meaningAll (fun _ => ∅) asUnion 2 = {5, 62} := by
    simp [asUnion, SetCall.meaningAll, SetCall.meaning, SetOp.dst, SetOp.meaning, Set.pair_comm]
  rw [hmembers] at hl
  exact ⟨S, T, l, hS, hT, hl, hl.bounded hspaced, halike (hmembers.trans hsame.symm)⟩

end SetState

end EquivChecker.SetTrie
