import EquivChecker.SetOperations
import Mathlib.Tactic.IntervalCases

/-!
# Inserting and looking up values
-/

namespace EquivChecker.SetTrie

open OwnedHeap

variable {s t : SetHeap} {k fuel : ℕ} {p : Ptr} {F : Set Ptr} {n : SetT}
  {G : Fin 32 → Set Ptr} {i : Fin 32} {v w : Word}

/-- The last `k + 1` digits of the values are equal. -/
def Agree (k : ℕ) (v w : Word) : Prop := ∀ j ≤ k, index w (5 * j) = index v (5 * j)

theorem agree_zero : Agree 0 v w ↔ index w 0 = index v 0 := by
  simp [Agree]

theorem agree_succ : Agree (k + 1) v w ↔
    index w (5 * (k + 1)) = index v (5 * (k + 1)) ∧ Agree k v w := by
  constructor
  · exact fun h => ⟨h (k + 1) le_rfl, fun j hj => h j (by omega)⟩
  · rintro ⟨hlast, h⟩ j hj
    rcases Nat.lt_or_eq_of_le hj with hlt | rfl
    · exact h j (by omega)
    · exact hlast

theorem index_val (v : Word) (offset : ℕ) : (index v offset).val = v.toNat / 2 ^ offset % 32 := by
  simp [index, Fin.ofNat, BitVec.toNat_ushiftRight, Nat.shiftRight_eq_div_pow]

theorem fits_index (v : Word) : Fits k (index v (5 * (k + 1))) := by
  have hdiv := Nat.div_mul_le_self v.toNat (2 ^ (5 * (k + 1)))
  have hmod := Nat.mul_le_mul_right (2 ^ (5 * (k + 1)))
    (Nat.mod_le (v.toNat / 2 ^ (5 * (k + 1))) 32)
  rw [Fits, index_val]
  exact (hmod.trans hdiv).trans_lt v.isLt

/-- Seven digits tell all values apart. -/
theorem agree_top : Agree 6 v w ↔ w = v := by
  constructor
  · intro h
    have digit : ∀ j ≤ 6, w.toNat / 2 ^ (5 * j) % 32 = v.toNat / 2 ^ (5 * j) % 32 := by
      intro j hj
      rw [← index_val, ← index_val, h j hj]
    have h0 := digit 0 (by omega)
    have h1 := digit 1 (by omega)
    have h2 := digit 2 (by omega)
    have h3 := digit 3 (by omega)
    have h4 := digit 4 (by omega)
    have h5 := digit 5 (by omega)
    have h6 := digit 6 (by omega)
    have hv := v.isLt
    have hw := w.isLt
    apply BitVec.eq_of_toNat_eq
    norm_num at h0 h1 h2 h3 h4 h5 h6 hv hw
    omega
  · rintro rfl j _
    rfl

theorem and_bit_of_getLsbD {m : Word} (h : m.getLsbD i = true) :
    m &&& (1#32 <<< i.val) = 1#32 <<< i.val := by
  apply BitVec.eq_of_getLsbD_eq
  intro j hj
  have hj' := getLsbD_bit i ⟨j, hj⟩
  simp only at hj'
  rw [BitVec.getLsbD_and, hj']
  by_cases hij : i = ⟨j, hj⟩
  · have hji : i.val = j := congrArg Fin.val hij
    rw [hji] at h
    simp [h, hij]
  · simp [hij]

theorem bit_shift (i : Fin 32) : (1#32 <<< i.val) >>> i.val = 1#32 := by
  revert i
  decide

theorem set_lookup_eq (hn : s.nodes p = some n) : set_lookup (fuel + 1) p v s =
    if n.mask.getLsbD (index v n.offset) = true then
      if n.offset = 0 then .ok (1, s) else set_lookup fuel (n.children (index v n.offset)) v s
    else .ok (0, s) := by
  rw [set_lookup]
  simp only [bind, StateT.bind, load, hn, Except.bind]
  cases hbit : n.mask.getLsbD (index v n.offset) with
  | false =>
    rw [if_pos ((and_bit_eq_zero_iff _ _).mpr hbit)]
    rfl
  | true =>
    have hne : n.mask &&& (1#32 <<< (index v n.offset).val) ≠ 0#32 := by
      rw [Ne, and_bit_eq_zero_iff, hbit]
      simp
    rw [if_neg hne, and_bit_of_getLsbD hbit, bit_shift, if_pos rfl]
    split <;> rfl

/-- `set_lookup` tells whether the value is a member. -/
theorem set_lookup_spec (ho : Owns s.nodes k p F) (hfuel : k < fuel) (v : Word) :
    ∃ r, set_lookup fuel p v s = .ok (r, s) ∧ (Has s.nodes k p v → r = 1) ∧
      (¬Has s.nodes k p v → r = 0) := by
  induction k generalizing p F fuel with
  | zero =>
    obtain ⟨fuel, rfl⟩ : ∃ m, fuel = m + 1 := ⟨fuel - 1, by omega⟩
    obtain ⟨n, hn, hoff⟩ := ho.node
    rw [set_lookup_eq hn, has_zero_iff hn, hoff, if_pos rfl]
    by_cases hbit : n.mask.getLsbD (index v 0) = true
    · exact ⟨1, if_pos hbit, fun _ => rfl, fun h => absurd hbit h⟩
    · exact ⟨0, if_neg hbit, fun h => absurd h hbit, fun _ => rfl⟩
  | succ k ih =>
    obtain ⟨fuel, rfl⟩ : ∃ m, fuel = m + 1 := ⟨fuel - 1, by omega⟩
    obtain ⟨n, G, hb, hmask, -, rfl⟩ := ho.branch
    rw [set_lookup_eq hb.node, has_succ_iff hb.node, hb.offset, if_neg (show ¬5 * (k + 1) = 0 by omega)]
    by_cases hbit : n.mask.getLsbD (index v (5 * (k + 1))) = true
    · obtain ⟨r, hr, hin, hout⟩ := ih (hb.child (hmask _ hbit)) (show k < fuel by omega)
      refine ⟨r, (if_pos hbit).trans hr, fun h => hin h.2, fun h => hout fun hhas => h ⟨hbit, hhas⟩⟩
    · exact ⟨0, if_neg hbit, fun h => absurd h.1 hbit, fun _ => rfl⟩

/-- The value is now a member, all other members are as before, and the result tells
whether it was a member. -/
def Inserted (s t : SetHeap) (k : ℕ) (p : Ptr) (F : Set Ptr) (v r : Word) : Prop :=
  Becomes s t k p F (fun w => Has s.nodes k p w ∨ Agree k v w) ∧ (r ≠ 0 ↔ Has s.nodes k p v)

theorem getLsbD_or_bit (m : Word) (i j : Fin 32) :
    (m ||| (1#32 <<< i.val)).getLsbD j = true ↔ m.getLsbD j = true ∨ j = i := by
  rw [BitVec.getLsbD_or, getLsbD_bit, Bool.or_eq_true, decide_eq_true_eq, eq_comm (a := i)]

/-- The descent goes on in child `i`, which is there now. -/
theorem ends_insert_child {s₁ t : SetHeap} {G' : Fin 32 → Set Ptr} {n' : SetT} {C : Word → Prop}
    (hb : Branch s.nodes k p n G) (hmask : ∀ j : Fin 32, n.mask.getLsbD j = true → n.children j ≠ NULL)
    (hfits : ∀ j : Fin 32, n.mask.getLsbD j = true → Fits k j)
    (hi : i = index v (5 * (k + 1)))
    (hs₁ : s₁.nodes = Function.update s.nodes p (some { n with mask := n.mask ||| (1#32 <<< i.val) }))
    (hstep : ChildStep k p i s₁.nodes { n with mask := n.mask ||| (1#32 <<< i.val) } G t.nodes n' G')
    (hfill : Filled t.nodes k n' i C)
    (hC : ∀ w, C w ↔ (n.mask.getLsbD i = true ∧ Has s.nodes k (n.children i) w) ∨ Agree k v w) :
    Becomes s t (k + 1) p (foot p G) (fun w => Has s.nodes (k + 1) p w ∨ Agree (k + 1) v w) := by
  obtain ⟨hb₁, hm₁, hsame⟩ := hb.setMask _ hs₁
  have hall : ∀ j : Fin 32, n'.mask.getLsbD j = true → Filled t.nodes k n' j
      (fun w => if j = i then C w else Has s.nodes k (n.children j) w) := by
    intro j hj
    by_cases hji : j = i
    · simpa only [hji, if_true] using hfill
    · rw [hstep.mask] at hj
      have hold : n.mask.getLsbD j = true := ((getLsbD_or_bit _ _ _).mp hj).resolve_right hji
      have hfilled : Filled s₁.nodes k { n with mask := n.mask ||| (1#32 <<< i.val) } j
          (Has s.nodes k (n.children j)) :=
        ⟨hmask j hold, (hb.child (hmask j hold)).has_congr (hsame j)⟩
      simpa only [hji, if_false] using hfilled.step hb₁ hstep hji
  have hfits' : ∀ j : Fin 32, n'.mask.getLsbD j = true → Fits k j := by
    intro j hj
    rw [hstep.mask] at hj
    rcases (getLsbD_or_bit _ _ _).mp hj with hold | rfl
    · exact hfits j hold
    · exact hi ▸ fits_index v
  obtain ⟨hown, hhas⟩ := hstep.branch.result hfits' hall
  refine ⟨_, hown, hm₁.trans hstep.moves_foot, fun w => ?_⟩
  have hbit : n'.mask.getLsbD (index w (5 * (k + 1))) = true ↔
      n.mask.getLsbD (index w (5 * (k + 1))) = true ∨ index w (5 * (k + 1)) = i := by
    rw [hstep.mask]
    exact getLsbD_or_bit _ _ _
  change _ ↔ Has s.nodes (k + 1) p w ∨ Agree (k + 1) v w
  rw [hhas w, hbit, has_succ_iff hb.node, agree_succ, ← hi]
  by_cases hw : index w (5 * (k + 1)) = i
  · simp only [hw, or_true, if_true, true_and, hC w]
  · simp only [hw, or_false, if_false, false_and]

theorem tight_insert_child {s₁ t : SetHeap} {G' : Fin 32 → Set Ptr} {n' : SetT}
    (hb : Branch s.nodes k p n G)
    (hs₁ : s₁.nodes = Function.update s.nodes p (some { n with mask := n.mask ||| (1#32 <<< i.val) }))
    (hstep : ChildStep k p i s₁.nodes { n with mask := n.mask ||| (1#32 <<< i.val) } G t.nodes n' G')
    (hchild : Tight t.nodes k (n'.children i)) (ht : Tight s.nodes (k + 1) p) :
    Tight t.nodes (k + 1) p := by
  obtain ⟨hb₁, -, hsame⟩ := hb.setMask _ hs₁
  refine ⟨n', hstep.branch.node, fun j hj => ?_⟩
  rw [hstep.mask]
  by_cases hji : j = i
  · subst hji
    exact ⟨(getLsbD_or_bit _ _ _).mpr (.inr rfl), hchild⟩
  · rw [(hstep.others j hji).1] at hj ⊢
    obtain ⟨hbit, htight⟩ := ht.child hb.node hj
    refine ⟨(getLsbD_or_bit _ _ _).mpr (.inl hbit), (hb.child hj).tight_congr (fun q hq => ?_) htight⟩
    rw [hstep.agree hb₁ hji q hq, hsame j q hq]

theorem set_insert_effect (ho : Owns s.nodes k p F) (hfuel : k < fuel) (v : Word) :
    Ends (set_insert fuel p v) (fun r t => Inserted s t k p F v r ∧
      (Tight s.nodes k p → Tight t.nodes k p)) s := by
  induction k generalizing s p F fuel with
  | zero =>
    obtain ⟨fuel, rfl⟩ : ∃ m, fuel = m + 1 := ⟨fuel - 1, by omega⟩
    obtain ⟨n, hn, hoff⟩ := ho.node
    refine ends_load hn (ends_store hn ?_)
    rw [if_neg (by omega), hoff]
    refine Wp.pure_iff.mpr ⟨⟨ho.setLeaf hn (n.mask ||| (1#32 <<< (index v 0).val)) ?_ fun w => ?_, ?_⟩,
      fun _ => trivial⟩
    · rw [hoff]
    · rw [getLsbD_or_bit, has_zero_iff hn, agree_zero]
    · change ¬_ = 0#32 ↔ _
      rw [and_bit_eq_zero_iff, has_zero_iff hn, Bool.not_eq_false]
  | succ k ih =>
    obtain ⟨fuel, rfl⟩ : ∃ m, fuel = m + 1 := ⟨fuel - 1, by omega⟩
    obtain ⟨n, G, hb, hmask, hfits, rfl⟩ := ho.branch
    refine ends_load hb.node (ends_store hb.node ?_)
    rw [if_pos hb.offset_pos, hb.offset_sub]
    dsimp only
    have hi : index v n.offset = index v (5 * (k + 1)) := by rw [hb.offset]
    generalize index v n.offset = i at hi
    generalize hs₁ : ({ s with
      nodes := Function.update s.nodes p
        (some { n with mask := n.mask ||| (1#32 <<< i.val) }) } : SetHeap) = s₁
    have hnodes : s₁.nodes = Function.update s.nodes p
        (some { n with mask := n.mask ||| (1#32 <<< i.val) }) := by rw [← hs₁]
    obtain ⟨hb₁, -, hsame⟩ := hb.setMask (n.mask ||| (1#32 <<< i.val)) hnodes
    have hpresent : Has s.nodes (k + 1) p v ↔
        n.mask.getLsbD i = true ∧ Has s.nodes k (n.children i) v := by
      rw [has_succ_iff hb.node, ← hi]
    cases hbit : n.mask.getLsbD i with
    | true =>
      have hchild := hmask i hbit
      have hhas := (hb.child hchild).has_congr (hsame i)
      rw [if_neg (by rw [and_bit_eq_zero_iff, hbit]; simp)]
      refine ends_load hb₁.node ((ih (hb₁.child hchild) (by omega)).mono ?_)
      rintro r t ⟨⟨⟨A, hown, hmoves, hins⟩, hr⟩, htight⟩
      have hstep := ChildStep.replace hb₁ hmoves hown (hb₁.live p (Set.mem_insert p _))
      refine ⟨⟨ends_insert_child hb hmask hfits hi hnodes hstep ⟨hchild, hins⟩ fun w => ?_, ?_⟩, ?_⟩
      · rw [hhas w, hbit]
        simp
      · rw [hr, hhas v, hpresent, hbit]
        simp
      · intro ht
        refine tight_insert_child hb hnodes hstep (htight ?_) ht
        exact (hb.child hchild).tight_congr (hsame i) (ht.child hb.node hchild).2
    | false =>
      rw [if_pos ((and_bit_eq_zero_iff _ _).mpr hbit)]
      refine (ends_grow (R := fun r => r = 0) (C := Agree k v) hb₁
        fun q t' hq hempty hbare hroot _ => ?_).mono ?_
      · refine ends_load hroot ?_
        simp only [Function.update_self]
        refine (ih hq (by omega)).mono ?_
        rintro r u ⟨⟨hu, hr⟩, htight⟩
        refine ⟨⟨hu.congr fun w => or_iff_right (hempty w), htight hbare.tight⟩, ?_⟩
        by_contra hne
        exact hempty v (hr.mp hne)
      · rintro r t ⟨⟨n', G', hstep, hfill, htight⟩, rfl⟩
        refine ⟨⟨ends_insert_child hb hmask hfits hi hnodes hstep hfill fun w => ?_, ?_⟩,
          tight_insert_child hb hnodes hstep htight⟩
        · rw [hbit]
          simp
        · rw [hpresent, hbit]
          simp

theorem set_insert_spec (ho : Owns s.nodes k p F) (hfuel : k < fuel) (v : Word) :
    Ends (set_insert fuel p v) (fun r t => Inserted s t k p F v r) s :=
  (set_insert_effect ho hfuel v).mono fun _ _ h => h.1

/-- `add_mem` inserts a block of consecutive values. -/
theorem add_mem_effect (ho : Owns s.nodes 6 p F) (base : Word) (n i : ℕ) :
    Ends (add_mem p base n i) (fun _ t => Becomes s t 6 p F
      (fun w => Has s.nodes 6 p w ∨ ∃ j, i ≤ j ∧ j < i + n ∧ w = base + BitVec.ofNat 32 j) ∧
      (Tight s.nodes 6 p → Tight t.nodes 6 p)) s := by
  induction n generalizing s F i with
  | zero =>
    refine Wp.pure_iff.mpr ⟨⟨F, ho, Moves.refl _ _, fun w => (or_iff_left ?_).symm⟩, id⟩
    rintro ⟨j, hij, hji, -⟩
    omega
  | succ n ih =>
    refine (set_insert_effect ho (by decide) _).bind ?_
    rintro - t ⟨⟨⟨A, hown, hmoves, hhas⟩, -⟩, htight⟩
    refine (ih hown (i + 1)).mono ?_
    rintro - u ⟨⟨B, hown', hmoves', hhas'⟩, htight'⟩
    refine ⟨⟨B, hown', hmoves.trans hmoves', fun w => ?_⟩, htight' ∘ htight⟩
    refine (hhas' w).trans ?_
    simp only [hhas w, agree_top, or_assoc]
    refine or_congr_right ⟨?_, ?_⟩
    · rintro (rfl | ⟨j, hij, hji, rfl⟩)
      · exact ⟨i, le_rfl, by omega, rfl⟩
      · exact ⟨j, by omega, by omega, rfl⟩
    · rintro ⟨j, hij, hji, rfl⟩
      rcases Nat.lt_or_eq_of_le hij with hlt | rfl
      · exact .inr ⟨j, hlt, by omega, rfl⟩
      · exact .inl rfl

/-- `set_alloc` makes an empty set of nodes that were free. -/
theorem set_alloc_effect : Ends set_alloc (fun p t => (Owns t.nodes 6 p {p} ∧
    Moves s.nodes t.nodes ∅ {p} ∧ ∀ w, ¬Has t.nodes 6 p w) ∧ Bare t.nodes p) s := by
  rw [set_alloc, ← bind_pure (set_alloc_offset MAX_OFFSET)]
  refine ends_alloc fun q t hq hdead ht => Wp.pure_iff.mpr ?_
  have hnode : t.nodes q = some (set_mk (5 * 6)) := by
    rw [ht, Function.update_self]
    rfl
  refine ⟨⟨owns_mk hq hnode, ?_, fun w => not_has_mk hnode⟩, _, hnode, fun _ => rfl⟩
  rw [ht]
  exact moves_alloc hdead

end EquivChecker.SetTrie
