import EquivChecker.SetOwnership

/-!
# Operations that go through the children of a node

The operations on tries treat the 32 children of the destination one after the other:
a child is replaced by a new node, worked on in place, freed, or left alone. Each of
these is a `ChildStep`, and a loop of child steps builds the destination.
-/

namespace EquivChecker.SetTrie

open OwnedHeap

/-- The program ends with the postcondition unless an allocation fails. -/
abbrev Ends {α : Type} (m : SetM α) (Q : α → SetHeap → Prop) (s : SetHeap) : Prop :=
  Wp (· = allocation_failed) m Q s

section Primitives
variable {α : Type} {s : SetHeap} {p : Ptr} {n n' : SetT} {Q : α → SetHeap → Prop}

theorem ends_load {f : SetT → SetM α} (hn : s.nodes p = some n) (hf : Ends (f n) Q s) :
    Ends (load p >>= f) Q s := by
  refine Wp.bind_iff.mpr ?_
  simp only [Wp, load, hn]
  exact hf

theorem ends_store {f : PUnit → SetM α} (hn : s.nodes p = some n)
    (hf : Ends (f ()) Q { s with nodes := Function.update s.nodes p (some n') }) :
    Ends (store p n' >>= f) Q s := by
  refine Wp.bind_iff.mpr ?_
  simp only [Wp, store, hn]
  exact hf

theorem setChild_ends {i : Fin 32} {child : Ptr} {Q : PUnit → SetHeap → Prop}
    (hn : s.nodes p = some n)
    (hQ : Q () { s with
      nodes := Function.update s.nodes p
        (some { n with children := Function.update n.children i child }) }) :
    Ends (setChild p i child) Q s := by
  simp only [Wp, setChild, load, store, hn, bind, StateT.bind, Except.bind]
  exact hQ

theorem ends_setChild {f : PUnit → SetM α} {i : Fin 32} {child : Ptr} (hn : s.nodes p = some n)
    (hf : Ends (f ()) Q { s with
      nodes := Function.update s.nodes p
        (some { n with children := Function.update n.children i child }) }) :
    Ends (setChild p i child >>= f) Q s :=
  Wp.bind_iff.mpr (setChild_ends hn hf)

theorem ends_alloc {f : Ptr → SetM α} {offset : ℕ}
    (hf : ∀ q t, q ≠ NULL → ¬Live s.nodes q →
      t.nodes = Function.update s.nodes q (some (set_mk offset)) → Ends (f q) Q t) :
    Ends (set_alloc_offset offset >>= f) Q s := by
  refine Wp.bind_iff.mpr ?_
  unfold Wp set_alloc_offset
  cases hsupply : s.supply with
  | nil => rfl
  | cons q supply =>
    by_cases hq : q = NULL ∨ (s.nodes q).isSome
    · simp only [hq, if_true]
    · simp only [hq, if_false]
      rw [not_or] at hq
      exact hf q _ hq.1 (by simpa [Live] using hq.2) rfl

theorem ends_free {s : SetHeap} {Q : PUnit → SetHeap → Prop} (hn : s.nodes p = some n)
    (hQ : Q () { s with nodes := Function.update s.nodes p none }) : Ends (equiv_free p) Q s := by
  simp only [Ends, Wp, equiv_free, hn]
  exact hQ

theorem ends_check {f : PUnit → SetM α} {b : Bool} (hb : b = true) (hf : Ends (f ()) Q s) :
    Ends (check b >>= f) Q s := by
  rw [hb]
  exact hf

end Primitives

variable {h h' h'' : Ptr → Option SetT} {k : ℕ} {p q z : Ptr} {F F' : Set Ptr} {n n' n'' : SetT}
  {G G' G'' : Fin 32 → Set Ptr} {A : Set Ptr} {i : Fin 32} {v : Word}

/-- Only child `i` of `z`, and what it owns, has changed. -/
structure ChildStep (k : ℕ) (z : Ptr) (i : Fin 32) (h : Ptr → Option SetT) (n : SetT)
    (G : Fin 32 → Set Ptr) (h' : Ptr → Option SetT) (n' : SetT) (G' : Fin 32 → Set Ptr) : Prop where
  branch : Branch h' k z n' G'
  mask : n'.mask = n.mask
  others : ∀ j, j ≠ i → n'.children j = n.children j ∧ G' j = G j
  moves : Moves h h' (insert z (G i)) (insert z (G' i))

theorem Branch.live_child (hb : Branch h k z n G) : ∀ q ∈ G i, Live h q :=
  fun q hq => hb.live q (mem_foot hq)

theorem Branch.disjoint_child (hb : Branch h k z n G) {j : Fin 32} (hj : j ≠ i) :
    Disjoint (insert z (G i)) (G j) := by
  refine Set.disjoint_left.mpr fun q hq hqj => ?_
  rcases hq with rfl | hq
  · exact hb.root j hqj
  · exact Set.disjoint_left.mp (hb.disjoint hj.symm) hq hqj

/-- Child `i` is replaced by `n'.children i`, which owns `A`. -/
theorem ChildStep.of (hb : Branch h k z n G) (hm : Moves h h' (insert z (G i)) (insert z A))
    (hnode : h' z = some n') (hoffset : n'.offset = n.offset) (hmask : n'.mask = n.mask)
    (hothers : ∀ j, j ≠ i → n'.children j = n.children j)
    (hchild : n'.children i = NULL ∧ A = ∅ ∨ Owns h' k (n'.children i) A) (hz : z ∉ A) :
    ChildStep k z i h n G h' n' (Function.update G i A) where
  branch := {
    ne_null := hb.ne_null
    node := hnode
    offset := hoffset.trans hb.offset
    kids := by
      intro j
      by_cases hj : j = i
      · subst hj
        simpa using hchild
      · rw [hothers j hj, Function.update_of_ne hj]
        exact (hb.kids j).imp id fun hown =>
          hown.congr (hm.agree hb.live_child (hb.disjoint_child hj))
    disjoint := by
      have hnew : ∀ j, j ≠ i → Disjoint A (G j) := fun j hj =>
        (hm.disjoint hb.live_child (hb.disjoint_child hj)).mono_left (Set.subset_insert z A)
      intro j j' hjj'
      by_cases hj : j = i
      · subst hj
        simpa [Function.update_of_ne hjj'.symm] using hnew j' hjj'.symm
      · by_cases hj' : j' = i
        · subst hj'
          simpa [Function.update_of_ne hj] using (hnew j hj).symm
        · simpa [Function.update_of_ne hj, Function.update_of_ne hj'] using hb.disjoint hjj'
    root := by
      intro j
      by_cases hj : j = i
      · subst hj
        simpa using hz
      · rw [Function.update_of_ne hj]
        exact hb.root j }
  mask := hmask
  others j hj := ⟨hothers j hj, Function.update_of_ne hj _ _⟩
  moves := by simpa using hm

theorem ChildStep.trans (hc : ChildStep k z i h n G h' n' G') (hc' : ChildStep k z i h' n' G' h'' n'' G'') :
    ChildStep k z i h n G h'' n'' G'' where
  branch := hc'.branch
  mask := hc'.mask.trans hc.mask
  others j hj := ⟨(hc'.others j hj).1.trans (hc.others j hj).1, (hc'.others j hj).2.trans (hc.others j hj).2⟩
  moves := hc.moves.trans hc'.moves

theorem ChildStep.refl (hb : Branch h k z n G) : ChildStep k z i h n G h n G :=
  ⟨hb, rfl, fun _ _ => ⟨rfl, rfl⟩, Moves.refl _ _⟩

theorem ChildStep.agree (hc : ChildStep k z i h n G h' n' G') (hb : Branch h k z n G) {j : Fin 32}
    (hj : j ≠ i) : ∀ q ∈ G j, h' q = h q :=
  hc.moves.agree hb.live_child (hb.disjoint_child hj)

theorem foot_split (z : Ptr) (G : Fin 32 → Set Ptr) (i : Fin 32) :
    foot z G = insert z (G i) ∪ ⋃ j ∈ {j | j ≠ i}, G j := by
  ext q
  simp only [foot, Set.mem_insert_iff, Set.mem_iUnion, Set.mem_union, Set.mem_ofPred_eq]
  constructor
  · rintro (hz | ⟨j, hj⟩)
    · exact .inl (.inl hz)
    · by_cases hji : j = i
      · exact .inl (.inr (hji ▸ hj))
      · exact .inr ⟨j, hji, hj⟩
  · rintro ((hz | hi) | ⟨j, -, hj⟩)
    · exact .inl hz
    · exact .inr ⟨i, hi⟩
    · exact .inr ⟨j, hj⟩

theorem ChildStep.moves_foot (hc : ChildStep k z i h n G h' n' G') :
    Moves h h' (foot z G) (foot z G') := by
  have hrest : (⋃ j ∈ {j | j ≠ i}, G' j) = ⋃ j ∈ {j | j ≠ i}, G j :=
    Set.iUnion₂_congr fun j hj => (hc.others j hj).2
  rw [foot_split z G i, foot_split z G' i, hrest]
  exact hc.moves.union _

/-- Child `i` is there and contains what it should. -/
def Filled (h : Ptr → Option SetT) (k : ℕ) (n : SetT) (i : Fin 32) (C : Word → Prop) : Prop :=
  n.children i ≠ NULL ∧ ∀ v, Has h k (n.children i) v ↔ C v

theorem Filled.step {C : Word → Prop} {j : Fin 32} (hf : Filled h k n j C) (hb : Branch h k z n G)
    (hc : ChildStep k z i h n G h' n' G') (hj : j ≠ i) : Filled h' k n' j C := by
  obtain ⟨hne, hhas⟩ := hf
  rw [Filled, (hc.others j hj).1]
  exact ⟨hne, fun v => ((hb.child hne).has_congr (hc.agree hb hj) v).trans (hhas v)⟩

/-- Child `i` is filled if its bit of the mask `m` is set. Where `b`, it is there only then. -/
structure Settled (h : Ptr → Option SetT) (k : ℕ) (n : SetT) (m : Word) (i : Fin 32)
    (C : Word → Prop) (b : Prop) : Prop where
  filled : m.getLsbD i = true → Filled h k n i C
  tight : b → n.children i ≠ NULL → m.getLsbD i = true ∧ Tight h k (n.children i)

theorem Settled.step {m : Word} {C : Word → Prop} {b : Prop} {j : Fin 32}
    (hs : Settled h k n m j C b) (hb : Branch h k z n G) (hc : ChildStep k z i h n G h' n' G')
    (hj : j ≠ i) : Settled h' k n' m j C b where
  filled hbit := (hs.filled hbit).step hb hc hj
  tight hthen := by
    rw [(hc.others j hj).1]
    intro hne
    obtain ⟨hbit, htight⟩ := hs.tight hthen hne
    exact ⟨hbit, (hb.child hne).tight_congr (hc.agree hb hj) htight⟩

/-- A child whose mask bit is not set is not there. -/
theorem Settled.unmarked {m : Word} {C : Word → Prop} {b : Prop} (hi : ¬m.getLsbD i = true)
    (hnull : b → n.children i = NULL) : Settled h k n m i C b :=
  ⟨fun h => absurd h hi, fun hthen hne => absurd (hnull hthen) hne⟩

/-- A loop of child steps that settles every child. -/
theorem children_loop {s : SetHeap} {body : Fin 32 → SetM PUnit} {C : Fin 32 → Word → Prop} {b : Prop}
    (hb : Branch s.nodes k z n G)
    (hbody : ∀ i t n' G', Branch t.nodes k z n' G' →
      Moves s.nodes t.nodes (foot z G) (foot z G') → n'.children i = n.children i → G' i = G i →
      (∀ q ∈ G i, t.nodes q = s.nodes q) →
      Ends (body i) (fun _ t' => ∃ n'' G'', ChildStep k z i t.nodes n' G' t'.nodes n'' G'' ∧
        Settled t'.nodes k n'' n.mask i (C i) b) t) :
    Ends (ForM.forM (List.finRange 32) body) (fun _ t => ∃ n' G', Branch t.nodes k z n' G' ∧
      n'.mask = n.mask ∧ Moves s.nodes t.nodes (foot z G) (foot z G') ∧
      ∀ i : Fin 32, Settled t.nodes k n' n.mask i (C i) b) s := by
  -- the children still to come are untouched, the others are settled
  let I : List (Fin 32) → SetHeap → Prop := fun todo t => todo.Nodup ∧
    ∃ n' G', Branch t.nodes k z n' G' ∧ n'.mask = n.mask ∧
      Moves s.nodes t.nodes (foot z G) (foot z G') ∧
      (∀ i ∈ todo, n'.children i = n.children i ∧ G' i = G i ∧ ∀ q ∈ G i, t.nodes q = s.nodes q) ∧
      ∀ i ∉ todo, Settled t.nodes k n' n.mask i (C i) b
  have hstep : ∀ i todo t, I (i :: todo) t → Ends (body i) (fun _ t' => I todo t') t := by
    rintro i todo t ⟨hnodup, n', G', hb', hmask, hmoves, htodo, hdone⟩
    obtain ⟨hi, hnodup⟩ := List.nodup_cons.mp hnodup
    obtain ⟨hchild, hG, hsame⟩ := htodo i List.mem_cons_self
    refine (hbody i t n' G' hb' hmoves hchild hG hsame).mono ?_
    rintro - t' ⟨n'', G'', hc, hsettled⟩
    refine ⟨hnodup, n'', G'', hc.branch, hc.mask.trans hmask, hmoves.trans hc.moves_foot, ?_, ?_⟩
    · intro j hj
      have hji : j ≠ i := fun heq => hi (heq ▸ hj)
      obtain ⟨hchild, hG, hsame⟩ := htodo j (List.mem_cons_of_mem i hj)
      refine ⟨(hc.others j hji).1.trans hchild, (hc.others j hji).2.trans hG, fun q hq => ?_⟩
      rw [hc.agree hb' hji q (hG ▸ hq), hsame q hq]
    · intro j hj
      by_cases hji : j = i
      · subst hji
        exact hsettled
      · refine (hdone j ?_).step hb' hc hji
        simp [hji, hj]
  refine (Wp.forM (I := I) hstep _ s ⟨List.nodup_finRange 32, n, G, hb, rfl, Moves.refl _ _,
    fun i _ => ⟨rfl, rfl, fun q _ => rfl⟩, fun i hi => absurd (List.mem_finRange i) hi⟩).mono ?_
  rintro - t ⟨-, n', G', hb', hmask, hmoves, -, hdone⟩
  exact ⟨n', G', hb', hmask, hmoves, fun i => hdone i (by simp)⟩

/-- A node whose children are filled is a trie. -/
theorem Branch.result {C : Fin 32 → Word → Prop} (hb : Branch h k z n G)
    (hfits : ∀ i : Fin 32, n.mask.getLsbD i = true → Fits k i)
    (hfill : ∀ i : Fin 32, n.mask.getLsbD i = true → Filled h k n i (C i)) :
    Owns h (k + 1) z (foot z G) ∧ ∀ v, Has h (k + 1) z v ↔
      n.mask.getLsbD (index v (5 * (k + 1))) = true ∧ C (index v (5 * (k + 1))) v := by
  refine ⟨hb.owns (fun i hbit => (hfill i hbit).1) hfits, fun v => ?_⟩
  rw [has_succ_iff hb.node]
  exact and_congr_right fun hbit => (hfill _ hbit).2 v

/-- The child is a new node. -/
theorem ChildStep.attach (hb : Branch h k z n G) (hq : q ≠ NULL) (hdead : ¬Live h q)
    (hh : h' = Function.update (Function.update h q (some (set_mk (5 * k)))) z
      (some { n with children := Function.update n.children i q })) :
    ChildStep k z i h n G h' { n with children := Function.update n.children i q }
      (Function.update G i {q}) ∧ h' q = some (set_mk (5 * k)) := by
  have hzq : q ≠ z := by
    rintro rfl
    exact hdead (hb.live q (Set.mem_insert q _))
  have hnode : h' q = some (set_mk (5 * k)) := by
    rw [hh, Function.update_of_ne hzq, Function.update_self]
  have hown : Owns h' k q {q} := owns_mk hq hnode
  have hmoves : Moves h h' (insert z (G i)) (insert z {q}) := by
    have halloc := (moves_alloc (n := set_mk (5 * k)) hdead).union {z}
    have hstore := (moves_update (h := Function.update h q (some (set_mk (5 * k)))) (p := z) (F := {z})
      (o := some { n with children := Function.update n.children i q }) le_rfl).union {q}
    rw [← hh] at hstore
    have hcomm : ({q} ∪ {z} : Set Ptr) = {z} ∪ {q} := Set.union_comm _ _
    rw [hcomm] at halloc
    refine ((halloc.trans hstore).widen ?_).drop (Set.insert_eq z {q}).le
    simp
  refine ⟨.of hb hmoves (by rw [hh, Function.update_self]) rfl rfl (fun j hj => ?_) (.inr ?_) ?_, hnode⟩
  · simp [hj]
  · simpa using hown
  · simpa using hzq.symm

/-- An operation worked on the child in place. -/
theorem ChildStep.replace (hb : Branch h k z n G) (hm : Moves h h' (G i) A)
    (hown : Owns h' k (n.children i) A) (hz : Live h z) :
    ChildStep k z i h n G h' n (Function.update G i A) := by
  have hzA : z ∉ A := fun hzA => (hm.fresh z hzA).elim (hb.root i) fun hdead => hdead hz
  have hnode : h' z = some n := by rw [hm.frame z (hb.root i) hz, hb.node]
  have hmoves : Moves h h' (insert z (G i)) (insert z A) := by
    have hu := hm.union {z}
    rwa [Set.union_singleton, Set.union_singleton] at hu
  exact .of hb hmoves hnode rfl rfl (fun _ _ => rfl) (.inr hown) hzA

/-- The child was freed and its pointer cleared. -/
theorem ChildStep.detach (hb : Branch h k z n G) (hm : Moves h h' (G i) ∅)
    (hh : h'' = Function.update h' z
      (some { n with children := Function.update n.children i NULL })) :
    ChildStep k z i h n G h'' { n with children := Function.update n.children i NULL }
      (Function.update G i ∅) := by
  have hmoves : Moves h h'' (insert z (G i)) (insert z ∅) := by
    have hfree := hm.union {z}
    have hstore := moves_update (h := h') (p := z) (F := {z})
      (o := some { n with children := Function.update n.children i NULL }) le_rfl
    rw [← hh] at hstore
    rw [Set.union_singleton, Set.empty_union] at hfree
    simpa using hfree.trans hstore
  refine .of hb hmoves (by rw [hh, Function.update_self]) rfl rfl (fun j hj => ?_)
    (.inl ⟨by simp, rfl⟩) (Set.notMem_empty z)
  simp [hj]

end EquivChecker.SetTrie
