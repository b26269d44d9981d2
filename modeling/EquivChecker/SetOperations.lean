import EquivChecker.SetChildren

/-!
# What the operations on tries do

Every operation changes only what its destination owns and leaves a trie there. The
sources are read; they may share nodes with each other, but not with the destination.
-/

namespace EquivChecker.SetTrie

open OwnedHeap

variable {s t u : SetHeap} {k fuel : ℕ} {p q x y z : Ptr} {F Fx Fy A B : Set Ptr} {n n' nx ny : SetT}
  {G G' Gx : Fin 32 → Set Ptr} {i : Fin 32} {v : Word} {C : Word → Prop}

/-- The trie at `z`, which owned `F`, now contains exactly the values in `C`. -/
def Becomes (s t : SetHeap) (k : ℕ) (z : Ptr) (F : Set Ptr) (C : Word → Prop) : Prop :=
  ∃ F', Owns t.nodes k z F' ∧ Moves s.nodes t.nodes F F' ∧ ∀ v, Has t.nodes k z v ↔ C v

theorem Becomes.congr {C' : Word → Prop} (hs : Becomes s t k z F C) (hC : ∀ v, C v ↔ C' v) :
    Becomes s t k z F C' := by
  obtain ⟨F', hown, hm, hhas⟩ := hs
  exact ⟨F', hown, hm, fun v => (hhas v).trans (hC v)⟩

/-- A trie that the owner of `F` does not touch. -/
structure Kept (s t : SetHeap) (k : ℕ) (x : Ptr) (Fx : Set Ptr) : Prop where
  owns : Owns t.nodes k x Fx
  node : t.nodes x = s.nodes x
  has : ∀ v, Has t.nodes k x v ↔ Has s.nodes k x v

theorem Owns.kept (ho : Owns s.nodes k x Fx) (hm : Moves s.nodes t.nodes F A)
    (hdisj : Disjoint F Fx) : Kept s t k x Fx :=
  have hsame := hm.agree ho.live hdisj
  ⟨ho.congr hsame, hsame x ho.root_mem, ho.has_congr hsame⟩

/-- `set_free` gives up everything. -/
theorem set_free_spec (ho : Owns s.nodes k p F) (hfuel : k < fuel) :
    Ends (set_free fuel p) (fun _ t => Moves s.nodes t.nodes F ∅) s := by
  induction k generalizing s p F fuel with
  | zero =>
    obtain ⟨fuel, rfl⟩ : ∃ m, fuel = m + 1 := ⟨fuel - 1, by omega⟩
    obtain ⟨-, ⟨n, hn, -, hnull⟩, rfl⟩ := ho
    refine Wp.bind (Wp.forM (I := fun _ t => t = s) ?_ _ s rfl) ?_
    · intro i _ t ht
      rw [ht]
      refine ends_load hn ?_
      simp [hnull i]
    · intro _ t ht
      rw [ht]
      exact ends_free hn (moves_update (Set.empty_subset _))
  | succ k ih =>
    obtain ⟨fuel, rfl⟩ : ∃ m, fuel = m + 1 := ⟨fuel - 1, by omega⟩
    obtain ⟨n, G, hb, -, -, rfl⟩ := ho.branch
    -- the root and the children still to come are untouched
    let I : List (Fin 32) → SetHeap → Prop := fun todo t => todo.Nodup ∧ t.nodes p = some n ∧
      (∀ i ∈ todo, ∀ q ∈ G i, t.nodes q = s.nodes q) ∧
      Moves s.nodes t.nodes (foot p G) (insert p (⋃ i ∈ {i | i ∈ todo}, G i))
    have hstep : ∀ i todo t, I (i :: todo) t → Ends (do
        let n ← load p
        if n.children i ≠ NULL then set_free fuel (n.children i)) (fun _ t' => I todo t') t := by
      rintro i todo t ⟨hnodup, hnode, htodo, hmoves⟩
      obtain ⟨hi, hnodup⟩ := List.nodup_cons.mp hnodup
      have hless : insert p (⋃ j ∈ {j | j ∈ todo}, G j) ⊆ insert p (⋃ j ∈ {j | j ∈ i :: todo}, G j) := by
        refine Set.insert_subset_insert (Set.biUnion_subset_biUnion_left fun j hj => ?_)
        exact List.mem_cons_of_mem i hj
      refine ends_load hnode ?_
      by_cases hnull : n.children i = NULL
      · simp only [hnull, ne_eq, not_true_eq_false, if_false, Wp.pure_iff]
        exact ⟨hnodup, hnode, fun j hj => htodo j (List.mem_cons_of_mem i hj), hmoves.drop hless⟩
      · rw [if_pos hnull]
        have hchild := (hb.child hnull).congr (htodo i List.mem_cons_self)
        refine (ih hchild (by omega)).mono ?_
        intro _ t' hfree
        refine ⟨hnodup, ?_, ?_, ?_⟩
        · rw [hfree.frame p (hb.root i) (by rw [Live, hnode]; simp), hnode]
        · intro j hj q hq
          have hji : i ≠ j := fun heq => hi (heq ▸ hj)
          have hsame := htodo j (List.mem_cons_of_mem i hj) q hq
          have hlive : Live t.nodes q := by
            rw [Live, hsame]
            exact hb.live_child q hq
          rw [hfree.frame q (fun hqi => Set.disjoint_left.mp (hb.disjoint hji) hqi hq) hlive, hsame]
        · refine hmoves.trans (((hfree.union _).widen ?_).drop (Set.empty_union _).ge)
          refine Set.union_subset (fun q hq => ?_) hless
          exact .inr (Set.mem_biUnion (x := i) List.mem_cons_self hq)
    refine Wp.bind (Wp.forM (I := I) hstep _ s ⟨List.nodup_finRange 32, hb.node, fun _ _ _ _ => rfl,
      (Moves.refl _ _).drop ?_⟩) ?_
    · exact Set.insert_subset_insert (Set.iUnion₂_subset fun i _ => Set.subset_iUnion G i)
    · rintro _ t ⟨-, hnode, -, hmoves⟩
      refine ends_free hnode ?_
      have hlast : insert p (⋃ i ∈ {i | i ∈ ([] : List (Fin 32))}, G i) = {p} := by simp
      rw [hlast] at hmoves
      exact hmoves.trans (moves_update (Set.empty_subset _))

theorem Branch.offset_sub (hb : Branch s.nodes k z n G) : n.offset - 5 = 5 * k := by
  have := hb.offset
  omega

theorem Branch.offset_pos (hb : Branch s.nodes k z n G) : 0 < n.offset := by
  have := hb.offset
  omega

/-- Before the loop an operation sets the mask of its destination. -/
theorem Branch.setMask (hb : Branch s.nodes k z n G) (mask : Word) (ht : t.nodes =
    Function.update s.nodes z (some { n with mask })) : Branch t.nodes k z { n with mask } G ∧
      Moves s.nodes t.nodes (foot z G) (foot z G) ∧ ∀ i, ∀ q ∈ G i, t.nodes q = s.nodes q := by
  have hsame : ∀ i, ∀ q ∈ G i, t.nodes q = s.nodes q := by
    intro i q hq
    have hne : q ≠ z := by
      rintro rfl
      exact hb.root i hq
    rw [ht, Function.update_of_ne hne]
  refine ⟨⟨hb.ne_null, by rw [ht, Function.update_self], hb.offset, fun i => ?_, hb.disjoint,
    hb.root⟩, ?_, hsame⟩
  · exact (hb.kids i).imp id fun hown => hown.congr (hsame i)
  · have hstore := (moves_update (h := s.nodes) (p := z) (o := some { n with mask }) (F := {z})
      le_rfl).union (⋃ i, G i)
    rw [← ht] at hstore
    simpa only [foot, Set.insert_eq] using hstore

/-- A leaf is a mask. -/
theorem Owns.setLeaf (ho : Owns s.nodes 0 z F) (hn : s.nodes z = some n) (mask : Word)
    (ht : t.nodes = Function.update s.nodes z (some { n with mask }))
    (hC : ∀ v, mask.getLsbD (index v 0) = true ↔ C v) : Becomes s t 0 z F C := by
  obtain ⟨hz, ⟨n', hn', hoff, hnull⟩, rfl⟩ := ho
  cases hn.symm.trans hn'
  have hnode : t.nodes z = some { n with mask } := by rw [ht, Function.update_self]
  refine ⟨{z}, ⟨hz, ⟨_, hnode, hoff, hnull⟩, rfl⟩, ?_, fun v => ?_⟩
  · rw [ht]
    exact moves_update le_rfl
  · rw [has_zero_iff hnode]
    exact hC v

/-- Child `i` becomes a new node, on which the operation goes on. -/
theorem ends_grow {α : Type} {op : Ptr → SetM α} {R : α → Prop}
    (hb : Branch t.nodes k z n G)
    (hop : ∀ q t', Owns t'.nodes k q {q} → (∀ v, ¬Has t'.nodes k q v) → Bare t'.nodes q →
      t'.nodes z = some { n with children := Function.update n.children i q } →
      Moves t.nodes t'.nodes (foot z G) (foot z (Function.update G i {q})) →
      Ends (op q) (fun r u => (Becomes t' u k q {q} C ∧ Tight u.nodes k q) ∧ R r) t') :
    Ends (do
      let q ← set_alloc_offset (5 * k)
      setChild z i q
      op q) (fun r u => (∃ n' G', ChildStep k z i t.nodes n G u.nodes n' G' ∧
        Filled u.nodes k n' i C ∧ Tight u.nodes k (n'.children i)) ∧ R r) t := by
  refine ends_alloc fun q t₁ hq hdead ht₁ => ?_
  have hzq : z ≠ q := by
    rintro rfl
    exact hdead (hb.live z (Set.mem_insert z _))
  have hnode : t₁.nodes z = some n := by rw [ht₁, Function.update_of_ne hzq, hb.node]
  refine ends_setChild hnode ?_
  obtain ⟨hattach, hnew⟩ := ChildStep.attach (i := i) hb hq hdead rfl
  rw [← ht₁] at hattach hnew
  have hchild : ({ n with children := Function.update n.children i q } : SetT).children i = q := by simp
  refine (hop q _ (owns_mk hq hnew) (fun v => not_has_mk hnew) ⟨_, hnew, fun _ => rfl⟩
    hattach.branch.node hattach.moves_foot).mono ?_
  rintro r u ⟨⟨⟨A, hown, hmoves, hhas⟩, htight⟩, hr⟩
  have hmoves' := hmoves
  rw [← Function.update_self (f := G) i {q}] at hmoves'
  have hown' : Owns u.nodes k (({ n with children := Function.update n.children i q } : SetT).children i)
      A := by
    rw [hchild]
    exact hown
  have hreplace := ChildStep.replace (i := i) hattach.branch hmoves' hown'
    (by rw [Live, hattach.branch.node]; simp)
  refine ⟨⟨_, _, hattach.trans hreplace, ⟨?_, ?_⟩, ?_⟩, hr⟩
  · rw [hchild]
    exact hq
  · rw [hchild]
    exact hhas
  · rw [hchild]
    exact htight

theorem ends_fill {op : Ptr → SetM PUnit} {m : Word} {b : Prop} (hb : Branch t.nodes k z n G)
    (hbit : b → m.getLsbD i = true)
    (hop : ∀ q t', Owns t'.nodes k q {q} → Bare t'.nodes q →
      Moves t.nodes t'.nodes (foot z G) (foot z (Function.update G i {q})) →
      Ends (op q) (fun _ u => Becomes t' u k q {q} C ∧ Tight u.nodes k q) t') :
    Ends (do
      let q ← set_alloc_offset (5 * k)
      setChild z i q
      op q) (fun _ u => ∃ n' G', ChildStep k z i t.nodes n G u.nodes n' G' ∧
        Settled u.nodes k n' m i C b) t := by
  refine (ends_grow (C := C) (R := fun _ => True) hb fun q t' hq _ hbare _ hm => ?_).mono ?_
  · exact (hop q t' hq hbare hm).mono fun _ u hu => ⟨hu, trivial⟩
  · rintro - u ⟨⟨n', G', hc, hfilled, htight⟩, -⟩
    exact ⟨n', G', hc, fun _ => hfilled, fun hthen _ => ⟨hbit hthen, htight⟩⟩

theorem singleton_subset_foot : {q} ⊆ foot z (Function.update G i {q}) := by
  intro r hr
  exact mem_foot (i := i) (by simpa using hr)

theorem fits_or {a b : Word} (ha : ∀ i : Fin 32, a.getLsbD i = true → Fits k i)
    (hb : ∀ i : Fin 32, b.getLsbD i = true → Fits k i) (i : Fin 32)
    (hi : (a ||| b).getLsbD i = true) : Fits k i := by
  rw [BitVec.getLsbD_or, Bool.or_eq_true] at hi
  exact hi.elim (ha i) (hb i)

theorem fits_and {a b : Word} (hb : ∀ i : Fin 32, b.getLsbD i = true → Fits k i) (i : Fin 32)
    (hi : (a &&& b).getLsbD i = true) : Fits k i := by
  rw [BitVec.getLsbD_and, Bool.and_eq_true] at hi
  exact hb i hi.2

/-- An operation that sets the mask of its destination and then settles the children. -/
theorem ends_children {s₁ : SetHeap} {mask : Word} {C : Fin 32 → Word → Prop} {D : Word → Prop} {b : Prop}
    {body : Fin 32 → SetM PUnit} (hb : Branch s.nodes k z n G)
    (hs₁ : s₁.nodes = Function.update s.nodes z (some { n with mask }))
    (hfits : ∀ i : Fin 32, mask.getLsbD i = true → Fits k i)
    (hbody : ∀ i t n' G', Branch t.nodes k z n' G' →
      Moves s.nodes t.nodes (foot z G) (foot z G') → n'.children i = n.children i → G' i = G i →
      (∀ q ∈ G i, t.nodes q = s.nodes q) →
      Ends (body i) (fun _ t' => ∃ n'' G'', ChildStep k z i t.nodes n' G' t'.nodes n'' G'' ∧
        Settled t'.nodes k n'' mask i (C i) b) t)
    (hD : ∀ v, mask.getLsbD (index v (5 * (k + 1))) = true ∧ C (index v (5 * (k + 1))) v ↔ D v) :
    Ends (ForM.forM (List.finRange 32) body)
      (fun _ t => Becomes s t (k + 1) z (foot z G) D ∧ (b → Tight t.nodes (k + 1) z)) s₁ := by
  obtain ⟨hb₁, hm₁, hsame⟩ := hb.setMask mask hs₁
  refine (children_loop (C := C) (b := b) hb₁ ?_).mono ?_
  · intro i t n' G' hbt hmt hchild hG hsamet
    exact hbody i t n' G' hbt (hm₁.trans hmt) hchild hG
      fun q hq => (hsamet q hq).trans (hsame i q hq)
  · rintro - t ⟨n', G', hbt, hmask, hmt, hsettled⟩
    have hmask' : n'.mask = mask := hmask
    obtain ⟨hown, hhas⟩ := hbt.result (fun i hbit => hfits i (hmask' ▸ hbit))
      fun i hbit => (hsettled i).filled (hmask ▸ hbit)
    refine ⟨⟨_, hown, hm₁.trans hmt, fun v => ?_⟩, fun hthen => ⟨n', hbt.node, fun i hi => ?_⟩⟩
    · rw [hhas v, hmask']
      exact hD v
    · rw [hmask]
      exact (hsettled i).tight hthen hi

/-- The children of a source stay as they are while the destination changes. -/
theorem Branch.kept_child (hb : Branch s.nodes k x nx Gx) (hi : nx.children i ≠ NULL)
    (hm : Moves s.nodes t.nodes F A) (hdisj : Disjoint F (foot x Gx)) :
    Kept s t k (nx.children i) (Gx i) ∧ Disjoint A (Gx i) :=
  have hsub : Disjoint F (Gx i) := hdisj.mono_right fun _ hr => mem_foot hr
  ⟨(hb.child hi).kept hm hsub, hm.disjoint (hb.child hi).live hsub⟩

theorem Branch.kept_root (hb : Branch s.nodes k x nx Gx) (hm : Moves s.nodes t.nodes F A)
    (hdisj : Disjoint F (foot x Gx)) : t.nodes x = some nx := by
  rw [hm.agree hb.live hdisj x (Set.mem_insert x _), hb.node]

/-- A destination without children gets none but those that its mask shows. -/
theorem set_copy_effect (hd : Owns s.nodes k z F) (hx : Owns s.nodes k x Fx) (hdisj : Disjoint F Fx)
    (hfuel : k < fuel) :
    Ends (set_copy fuel z x) (fun _ t => Becomes s t k z F (Has s.nodes k x) ∧
      (Bare s.nodes z → Tight t.nodes k z)) s := by
  induction k generalizing s z F x Fx fuel with
  | zero =>
    obtain ⟨fuel, rfl⟩ : ∃ m, fuel = m + 1 := ⟨fuel - 1, by omega⟩
    obtain ⟨nx, hnx, hoffx⟩ := hx.node
    obtain ⟨nd, hnd, hoffd⟩ := hd.node
    refine ends_load hnx (ends_load hnd (ends_store hnd ?_))
    rw [if_neg (by omega)]
    have heq : ({ nd with offset := nx.offset, mask := nx.mask } : SetT) = { nd with mask := nx.mask } := by
      rw [hoffx, ← hoffd]
    exact ⟨hd.setLeaf hnd nx.mask (by rw [heq]) fun v => (has_zero_iff hnx).symm, fun _ => trivial⟩
  | succ k ih =>
    obtain ⟨fuel, rfl⟩ : ∃ m, fuel = m + 1 := ⟨fuel - 1, by omega⟩
    obtain ⟨nx, Gx, hbx, hmaskx, hfitsx, rfl⟩ := hx.branch
    obtain ⟨nd, G, hb, -, -, rfl⟩ := hd.branch
    refine ends_load hbx.node (ends_load hb.node (ends_store hb.node ?_))
    rw [if_pos hbx.offset_pos]
    have heq : ({ nd with offset := nx.offset, mask := nx.mask } : SetT) = { nd with mask := nx.mask } := by
      rw [hbx.offset, ← hb.offset]
    rw [heq]
    refine ends_children (C := fun i => Has s.nodes k (nx.children i)) hb rfl hfitsx ?_
      fun v => (has_succ_iff hbx.node).symm
    intro i t n' G' hbt hmst hchild _ _
    refine ends_load (hbx.kept_root hmst hdisj) ?_
    rw [mask_has_eq]
    by_cases hbit : nx.mask.getLsbD i = true
    · rw [if_pos hbit, hbx.offset_sub]
      refine ends_fill hbt (fun _ => hbit) fun q t' hq hbare hmt' => ?_
      obtain ⟨hkept, hnew⟩ := hbx.kept_child (hmaskx i hbit) (hmst.trans hmt') hdisj
      refine (ih hq hkept.owns (hnew.mono_left singleton_subset_foot) (by omega)).mono ?_
      exact fun _ u hu => ⟨hu.1.congr hkept.has, hu.2 hbare⟩
    · rw [if_neg hbit]
      exact ⟨n', G', .refl hbt, .unmarked hbit fun hz => hchild.trans (hz.child hb.node i)⟩

theorem set_union_effect (hz : Owns s.nodes k z F) (hx : Owns s.nodes k x Fx) (hy : Owns s.nodes k y Fy)
    (hdx : Disjoint F Fx) (hdy : Disjoint F Fy) (hfuel : k < fuel) :
    Ends (set_union fuel z x y)
      (fun _ t => Becomes s t k z F (fun v => Has s.nodes k x v ∨ Has s.nodes k y v) ∧
        (Bare s.nodes z → Tight t.nodes k z)) s := by
  induction k generalizing s z F x Fx y Fy fuel with
  | zero =>
    obtain ⟨fuel, rfl⟩ : ∃ m, fuel = m + 1 := ⟨fuel - 1, by omega⟩
    obtain ⟨nx, hnx, hoffx⟩ := hx.node
    obtain ⟨ny, hny, hoffy⟩ := hy.node
    obtain ⟨nz, hnz, hoffz⟩ := hz.node
    refine ends_load hnz (ends_load hnx (ends_load hny (ends_check (by simp [hoffx, hoffy, hoffz])
      (ends_store hnz ?_))))
    rw [if_neg (by simp [hoffz])]
    refine ⟨hz.setLeaf hnz _ rfl fun v => ?_, fun _ => trivial⟩
    rw [has_zero_iff hnx, has_zero_iff hny, BitVec.getLsbD_or, Bool.or_eq_true]
  | succ k ih =>
    obtain ⟨fuel, rfl⟩ : ∃ m, fuel = m + 1 := ⟨fuel - 1, by omega⟩
    obtain ⟨nx, Gx, hbx, hmaskx, hfitsx, rfl⟩ := hx.branch
    obtain ⟨ny, Gy, hby, hmasky, hfitsy, rfl⟩ := hy.branch
    obtain ⟨nz, G, hb, -, -, rfl⟩ := hz.branch
    refine ends_load hb.node (ends_load hbx.node (ends_load hby.node (ends_check
      (by simp [hb.offset, hbx.offset, hby.offset]) (ends_store hb.node ?_))))
    rw [if_pos hb.offset_pos.ne']
    refine ends_children (C := fun i v =>
      (nx.mask.getLsbD i = true ∧ Has s.nodes k (nx.children i) v) ∨
        (ny.mask.getLsbD i = true ∧ Has s.nodes k (ny.children i) v)) hb rfl (fits_or hfitsx hfitsy) ?_ ?_
    · intro i t n' G' hbt hmst hchild _ _
      have hor : (nx.mask ||| ny.mask).getLsbD i = true ↔
          nx.mask.getLsbD i = true ∨ ny.mask.getLsbD i = true := by
        rw [BitVec.getLsbD_or, Bool.or_eq_true]
      simp only [mask_has_eq, BitVec.getLsbD_and, hor, Bool.and_eq_true, hb.offset_sub]
      by_cases hbitx : nx.mask.getLsbD i = true
      · by_cases hbity : ny.mask.getLsbD i = true
        · rw [if_pos ⟨hbitx, hbity⟩]
          refine ends_fill hbt (fun _ => hor.mpr (.inl hbitx)) fun q t' hq hbare hmt' => ?_
          have hm := hmst.trans hmt'
          obtain ⟨hkx, hnewx⟩ := hbx.kept_child (hmaskx i hbitx) hm hdx
          obtain ⟨hky, hnewy⟩ := hby.kept_child (hmasky i hbity) hm hdy
          refine ends_load (hbx.kept_root hm hdx) (ends_load (hby.kept_root hm hdy) ?_)
          refine (ih hq hkx.owns hky.owns (hnewx.mono_left singleton_subset_foot)
            (hnewy.mono_left singleton_subset_foot) (by omega)).mono ?_
          refine fun _ u hu => ⟨hu.1.congr fun v => ?_, hu.2 hbare⟩
          simp only [hkx.has v, hky.has v, hbitx, hbity, true_and]
        · rw [if_neg fun h => hbity h.2, if_pos (.inl hbitx)]
          refine ends_fill hbt (fun _ => hor.mpr (.inl hbitx)) fun q t' hq hbare hmt' => ?_
          have hm := hmst.trans hmt'
          obtain ⟨hkx, hnewx⟩ := hbx.kept_child (hmaskx i hbitx) hm hdx
          refine ends_load (hbx.kept_root hm hdx) (ends_load (hby.kept_root hm hdy) ?_)
          rw [if_pos hbitx]
          refine (set_copy_effect hq hkx.owns (hnewx.mono_left singleton_subset_foot) (by omega)).mono ?_
          refine fun _ u hu => ⟨hu.1.congr fun v => ?_, hu.2 hbare⟩
          simp only [hkx.has v, hbitx, hbity, true_and, false_and, or_false, Bool.false_eq_true]
      · by_cases hbity : ny.mask.getLsbD i = true
        · rw [if_neg fun h => hbitx h.1, if_pos (.inr hbity)]
          refine ends_fill hbt (fun _ => hor.mpr (.inr hbity)) fun q t' hq hbare hmt' => ?_
          have hm := hmst.trans hmt'
          obtain ⟨hky, hnewy⟩ := hby.kept_child (hmasky i hbity) hm hdy
          refine ends_load (hbx.kept_root hm hdx) (ends_load (hby.kept_root hm hdy) ?_)
          rw [if_neg hbitx, if_pos hbity]
          refine (set_copy_effect hq hky.owns (hnewy.mono_left singleton_subset_foot) (by omega)).mono ?_
          refine fun _ u hu => ⟨hu.1.congr fun v => ?_, hu.2 hbare⟩
          simp only [hky.has v, hbitx, hbity, true_and, false_and, false_or, Bool.false_eq_true]
        · have hnone : ¬(nx.mask.getLsbD i = true ∨ ny.mask.getLsbD i = true) :=
            fun h => h.elim hbitx hbity
          rw [if_neg fun h => hbitx h.1, if_neg hnone]
          exact ⟨n', G', .refl hbt, .unmarked (mt hor.mp hnone) fun hz =>
            hchild.trans (hz.child hb.node i)⟩
    · intro v
      rw [has_succ_iff hbx.node, has_succ_iff hby.node, BitVec.getLsbD_or, Bool.or_eq_true]
      tauto

/-- An operation in place on child `i`. -/
theorem ends_in_place {op : SetM PUnit} {m : Word} {b : Prop} (hb : Branch t.nodes k z n G)
    (hi : n.children i ≠ NULL) (hbit : m.getLsbD i = true)
    (hop : Ends op (fun _ u => Becomes t u k (n.children i) (G i) C ∧
      (b → Tight u.nodes k (n.children i))) t) :
    Ends op (fun _ u => ∃ n' G', ChildStep k z i t.nodes n G u.nodes n' G' ∧
      Settled u.nodes k n' m i C b) t := by
  refine hop.mono ?_
  rintro - u ⟨⟨A, hown, hmoves, hhas⟩, htight⟩
  exact ⟨_, _, .replace hb hmoves hown (by rw [Live, hb.node]; simp), fun _ => ⟨hi, hhas⟩,
    fun hthen _ => ⟨hbit, htight hthen⟩⟩

theorem set_union_inplace_effect (hy : Owns s.nodes k y F) (hx : Owns s.nodes k x Fx)
    (hdisj : Disjoint F Fx) (hfuel : k < fuel) :
    Ends (set_union_inplace fuel y x)
      (fun _ t => Becomes s t k y F (fun v => Has s.nodes k y v ∨ Has s.nodes k x v) ∧
        (Tight s.nodes k y → Tight t.nodes k y)) s := by
  induction k generalizing s y F x Fx fuel with
  | zero =>
    obtain ⟨fuel, rfl⟩ : ∃ m, fuel = m + 1 := ⟨fuel - 1, by omega⟩
    obtain ⟨ny, hny, hoffy⟩ := hy.node
    obtain ⟨nx, hnx, hoffx⟩ := hx.node
    refine ends_load hny (ends_load hnx (ends_check (by simp [hoffx, hoffy]) (ends_store hny ?_)))
    rw [if_neg (by simp [hoffy])]
    refine ⟨hy.setLeaf hny _ rfl fun v => ?_, fun _ => trivial⟩
    rw [has_zero_iff hny, has_zero_iff hnx, BitVec.getLsbD_or, Bool.or_eq_true]
  | succ k ih =>
    obtain ⟨fuel, rfl⟩ : ∃ m, fuel = m + 1 := ⟨fuel - 1, by omega⟩
    obtain ⟨nx, Gx, hbx, hmaskx, hfitsx, rfl⟩ := hx.branch
    obtain ⟨ny, G, hb, hmasky, hfitsy, rfl⟩ := hy.branch
    refine ends_load hb.node (ends_load hbx.node (ends_check (by simp [hb.offset, hbx.offset])
      (ends_store hb.node ?_)))
    rw [if_pos hb.offset_pos.ne']
    refine ends_children (C := fun i v =>
      (ny.mask.getLsbD i = true ∧ Has s.nodes k (ny.children i) v) ∨
        (nx.mask.getLsbD i = true ∧ Has s.nodes k (nx.children i) v)) hb rfl (fits_or hfitsy hfitsx) ?_ ?_
    · intro i t n' G' hbt hmst hchild hG hsame
      refine ends_load hbt.node (ends_load (hbx.kept_root hmst hdisj) ?_)
      simp only [mask_has_eq, BitVec.getLsbD_and, Bool.and_eq_true, hbx.offset_sub]
      have hor : (ny.mask ||| nx.mask).getLsbD i = true ↔
          ny.mask.getLsbD i = true ∨ nx.mask.getLsbD i = true := by
        rw [BitVec.getLsbD_or, Bool.or_eq_true]
      have hold : ∀ hi : ny.children i ≠ NULL, Tight s.nodes (k + 1) y →
          Tight t.nodes k (n'.children i) := fun hi ht => by
        rw [hchild]
        exact (hb.child hi).tight_congr hsame (ht.child hb.node hi).2
      by_cases hbity : ny.mask.getLsbD i = true
      · have hhas := (hb.child (hmasky i hbity)).has_congr hsame
        have hne : n'.children i ≠ NULL := hchild ▸ hmasky i hbity
        by_cases hbitx : nx.mask.getLsbD i = true
        · rw [if_pos ⟨hbity, hbitx⟩]
          obtain ⟨hkx, hnewx⟩ := hbx.kept_child (hmaskx i hbitx) hmst hdisj
          have hsub : G' i ⊆ foot y G' := fun r hr => mem_foot hr
          refine ends_in_place hbt hne (hor.mpr (.inl hbity)) ((ih (hbt.child hne) hkx.owns
            (hnewx.mono_left hsub) (by omega)).mono fun _ u hu =>
              ⟨hu.1.congr fun v => ?_, fun ht => hu.2 (hold (hmasky i hbity) ht)⟩)
          simp only [hchild, hhas v, hkx.has v, hbity, hbitx, true_and]
        · rw [if_neg fun h => hbitx h.2, if_neg hbitx]
          refine ⟨n', G', .refl hbt, fun _ => ⟨hne, fun v => ?_⟩,
            fun ht _ => ⟨hor.mpr (.inl hbity), hold (hmasky i hbity) ht⟩⟩
          simp only [hchild, hhas v, hbity, hbitx, true_and, false_and, or_false, Bool.false_eq_true]
      · rw [if_neg fun h => hbity h.1]
        by_cases hbitx : nx.mask.getLsbD i = true
        · rw [if_pos hbitx]
          refine ends_fill hbt (fun _ => hor.mpr (.inr hbitx)) fun q t' hq hbare hmt' => ?_
          obtain ⟨hkx, hnewx⟩ := hbx.kept_child (hmaskx i hbitx) (hmst.trans hmt') hdisj
          refine (set_copy_effect hq hkx.owns (hnewx.mono_left singleton_subset_foot) (by omega)).mono ?_
          refine fun _ u hu => ⟨hu.1.congr fun v => ?_, hu.2 hbare⟩
          simp only [hkx.has v, hbity, hbitx, true_and, false_and, false_or, Bool.false_eq_true]
        · have hnone : ¬(ny.mask ||| nx.mask).getLsbD i = true :=
            fun h => (hor.mp h).elim hbity hbitx
          rw [if_neg hbitx]
          exact ⟨n', G', .refl hbt, .unmarked hnone fun ht => hchild.trans (ht.unmarked hb.node hbity)⟩
    · intro v
      rw [has_succ_iff hbx.node, has_succ_iff hb.node, BitVec.getLsbD_or, Bool.or_eq_true]
      tauto

theorem set_union_inplace_spec (hy : Owns s.nodes k y F) (hx : Owns s.nodes k x Fx)
    (hdisj : Disjoint F Fx) (hfuel : k < fuel) :
    Ends (set_union_inplace fuel y x)
      (fun _ t => Becomes s t k y F fun v => Has s.nodes k y v ∨ Has s.nodes k x v) s :=
  (set_union_inplace_effect hy hx hdisj hfuel).mono fun _ _ h => h.1

theorem set_intersection_effect (hz : Owns s.nodes k z F) (hx : Owns s.nodes k x Fx)
    (hy : Owns s.nodes k y Fy) (hdx : Disjoint F Fx) (hdy : Disjoint F Fy) (hfuel : k < fuel) :
    Ends (set_intersection fuel z x y)
      (fun _ t => Becomes s t k z F (fun v => Has s.nodes k x v ∧ Has s.nodes k y v) ∧
        (Bare s.nodes z → Tight t.nodes k z)) s := by
  induction k generalizing s z F x Fx y Fy fuel with
  | zero =>
    obtain ⟨fuel, rfl⟩ : ∃ m, fuel = m + 1 := ⟨fuel - 1, by omega⟩
    obtain ⟨nx, hnx, hoffx⟩ := hx.node
    obtain ⟨ny, hny, hoffy⟩ := hy.node
    obtain ⟨nz, hnz, hoffz⟩ := hz.node
    refine ends_load hnz (ends_load hnx (ends_load hny (ends_check (by simp [hoffx, hoffy, hoffz])
      (ends_store hnz ?_))))
    rw [if_neg (by simp [hoffz])]
    refine ⟨hz.setLeaf hnz _ rfl fun v => ?_, fun _ => trivial⟩
    rw [has_zero_iff hnx, has_zero_iff hny, BitVec.getLsbD_and, Bool.and_eq_true, and_comm]
  | succ k ih =>
    obtain ⟨fuel, rfl⟩ : ∃ m, fuel = m + 1 := ⟨fuel - 1, by omega⟩
    obtain ⟨nx, Gx, hbx, hmaskx, hfitsx, rfl⟩ := hx.branch
    obtain ⟨ny, Gy, hby, hmasky, hfitsy, rfl⟩ := hy.branch
    obtain ⟨nz, G, hb, -, -, rfl⟩ := hz.branch
    refine ends_load hb.node (ends_load hbx.node (ends_load hby.node (ends_check
      (by simp [hb.offset, hbx.offset, hby.offset]) (ends_store hb.node ?_))))
    rw [if_pos hb.offset_pos.ne']
    refine ends_children (C := fun i v =>
      Has s.nodes k (nx.children i) v ∧ Has s.nodes k (ny.children i) v) hb rfl (fits_and hfitsx) ?_ ?_
    · intro i t n' G' hbt hmst hchild _ _
      simp only [mask_has_eq]
      by_cases hbit : (ny.mask &&& nx.mask).getLsbD i = true
      · rw [if_pos hbit]
        have hbits := hbit
        rw [BitVec.getLsbD_and, Bool.and_eq_true] at hbits
        refine ends_load (hbx.kept_root hmst hdx) ?_
        rw [hbx.offset_sub]
        refine ends_fill hbt (fun _ => hbit) fun q t' hq hbare hmt' => ?_
        have hm := hmst.trans hmt'
        obtain ⟨hkx, hnewx⟩ := hbx.kept_child (hmaskx i hbits.2) hm hdx
        obtain ⟨hky, hnewy⟩ := hby.kept_child (hmasky i hbits.1) hm hdy
        refine ends_load (hby.kept_root hm hdy) ?_
        refine (ih hq hkx.owns hky.owns (hnewx.mono_left singleton_subset_foot)
          (hnewy.mono_left singleton_subset_foot) (by omega)).mono ?_
        exact fun _ u hu => ⟨hu.1.congr fun v => and_congr (hkx.has v) (hky.has v), hu.2 hbare⟩
      · rw [if_neg hbit]
        exact ⟨n', G', .refl hbt, .unmarked hbit fun hz => hchild.trans (hz.child hb.node i)⟩
    · intro v
      rw [has_succ_iff hbx.node, has_succ_iff hby.node, BitVec.getLsbD_and, Bool.and_eq_true]
      tauto

theorem set_intersection_spec (hz : Owns s.nodes k z F) (hx : Owns s.nodes k x Fx)
    (hy : Owns s.nodes k y Fy) (hdx : Disjoint F Fx) (hdy : Disjoint F Fy) (hfuel : k < fuel) :
    Ends (set_intersection fuel z x y)
      (fun _ t => Becomes s t k z F fun v => Has s.nodes k x v ∧ Has s.nodes k y v) s :=
  (set_intersection_effect hz hx hy hdx hdy hfuel).mono fun _ _ h => h.1

/-- The copies that it makes of subtrees that only `x` has end under cleared mask bits. There are
none where `y` covers `x`. -/
theorem set_intersection_inplace_effect (hy : Owns s.nodes k y F) (hx : Owns s.nodes k x Fx)
    (hdisj : Disjoint F Fx) (hfuel : k < fuel) :
    Ends (set_intersection_inplace fuel y x)
      (fun _ t => Becomes s t k y F (fun v => Has s.nodes k y v ∧ Has s.nodes k x v) ∧
        (Tight s.nodes k y ∧ Covers s.nodes k y x → Tight t.nodes k y)) s := by
  induction k generalizing s y F x Fx fuel with
  | zero =>
    obtain ⟨fuel, rfl⟩ : ∃ m, fuel = m + 1 := ⟨fuel - 1, by omega⟩
    obtain ⟨ny, hny, hoffy⟩ := hy.node
    obtain ⟨nx, hnx, hoffx⟩ := hx.node
    refine ends_load hny (ends_load hnx (ends_check (by simp [hoffx, hoffy]) (ends_store hny ?_)))
    rw [if_neg (by simp [hoffy])]
    refine ⟨hy.setLeaf hny _ rfl fun v => ?_, fun _ => trivial⟩
    rw [has_zero_iff hny, has_zero_iff hnx, BitVec.getLsbD_and, Bool.and_eq_true]
  | succ k ih =>
    obtain ⟨fuel, rfl⟩ : ∃ m, fuel = m + 1 := ⟨fuel - 1, by omega⟩
    obtain ⟨nx, Gx, hbx, hmaskx, hfitsx, rfl⟩ := hx.branch
    obtain ⟨ny, G, hb, hmasky, hfitsy, rfl⟩ := hy.branch
    refine ends_load hb.node (ends_load hbx.node (ends_check (by simp [hb.offset, hbx.offset])
      (ends_store hb.node ?_)))
    rw [if_pos hb.offset_pos.ne']
    refine ends_children (C := fun i v =>
      Has s.nodes k (ny.children i) v ∧ Has s.nodes k (nx.children i) v) hb rfl (fits_and hfitsx) ?_ ?_
    · intro i t n' G' hbt hmst hchild hG hsame
      refine ends_load hbt.node (ends_load (hbx.kept_root hmst hdisj) ?_)
      have hand : (ny.mask &&& nx.mask).getLsbD i = (ny.mask.getLsbD i && nx.mask.getLsbD i) :=
        BitVec.getLsbD_and
      simp only [mask_has_eq, BitVec.getLsbD_and, BitVec.getLsbD_not, i.isLt, decide_true,
        Bool.true_and, Bool.and_eq_true, Bool.not_eq_true']
      cases hbity : ny.mask.getLsbD i with
      | true =>
        have hold := hb.child (hmasky i hbity)
        have hhas := hold.has_congr hsame
        have hne : n'.children i ≠ NULL := hchild ▸ hmasky i hbity
        cases hbitx : nx.mask.getLsbD i with
        | true =>
          simp only [Bool.true_eq_false, and_false, if_false, and_self, if_true]
          obtain ⟨hkx, hnewx⟩ := hbx.kept_child (hmaskx i hbitx) hmst hdisj
          have hsub : G' i ⊆ foot y G' := fun r hr => mem_foot hr
          refine ends_in_place hbt hne (by rw [hand, hbity, hbitx]; rfl) ((ih (hbt.child hne) hkx.owns
            (hnewx.mono_left hsub) (by omega)).mono fun _ u hu => ⟨hu.1.congr fun v => ?_, ?_⟩)
          · rw [hchild]
            exact and_congr (hhas v) (hkx.has v)
          · rintro ⟨ht, hc⟩
            have hxchild := hbx.child (hmaskx i hbitx)
            have hxsame := hmst.agree hxchild.live (hdisj.mono_right fun _ hr => mem_foot hr)
            refine hu.2 ?_
            rw [hchild]
            exact ⟨hold.tight_congr hsame (ht.child hb.node (hmasky i hbity)).2,
              hold.covers_congr hxchild hsame hxsame (hc.child hb.node hbx.node hbitx).2⟩
        | false =>
          simp only [and_self, if_true]
          refine (set_free_spec (hbt.child hne) (by omega)).bind fun _ t' hfree => ?_
          have hroot : t'.nodes y = some n' := by
            rw [hfree.frame y (hbt.root i) (by rw [Live, hbt.node]; simp), hbt.node]
          refine setChild_ends hroot ⟨_, _, .detach hbt hfree rfl, .unmarked ?_ fun _ => ?_⟩
          · rw [hand, hbitx]
            simp
          · exact Function.update_self (f := n'.children) i NULL
      | false =>
        have hnot : ¬(ny.mask &&& nx.mask).getLsbD i = true := by
          rw [hand, hbity]
          simp
        cases hbitx : nx.mask.getLsbD i with
        | true =>
          simp only [Bool.false_eq_true, false_and, if_false, and_self, if_true, hbt.offset_sub]
          refine (ends_fill (m := ny.mask &&& nx.mask) (b := Tight s.nodes (k + 1) y ∧
            Covers s.nodes (k + 1) y x) (C := Has s.nodes k (nx.children i)) hbt (fun h => ?_) ?_).mono
              fun _ u hu => ?_
          · have hcov := (h.2.child hb.node hbx.node hbitx).1
            rw [hbity] at hcov
            cases hcov
          · intro q t' hq hbare hmt'
            obtain ⟨hkx, hnewx⟩ := hbx.kept_child (hmaskx i hbitx) (hmst.trans hmt') hdisj
            exact (set_copy_effect hq hkx.owns (hnewx.mono_left singleton_subset_foot) (by omega)).mono
              fun _ u hu => ⟨hu.1.congr hkx.has, hu.2 hbare⟩
          · obtain ⟨n'', G'', hc, hset⟩ := hu
            exact ⟨n'', G'', hc, fun h => absurd h hnot, hset.tight⟩
        | false =>
          simp only [Bool.false_eq_true, false_and, if_false]
          refine ⟨n', G', .refl hbt, .unmarked hnot fun h => hchild.trans (h.1.unmarked hb.node ?_)⟩
          rw [hbity]
          exact Bool.false_ne_true
    · intro v
      rw [has_succ_iff hbx.node, has_succ_iff hb.node, BitVec.getLsbD_and, Bool.and_eq_true]
      tauto

end EquivChecker.SetTrie
