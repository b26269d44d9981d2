import EquivChecker.SetMembers

/-!
# Families of sets

Variables, indexed by any type, point to tries that own disjoint parts of the heap, so
that an operation on one of them leaves the others as they are.
-/

namespace EquivChecker.SetTrie

open OwnedHeap

variable {ι : Type} {s t : SetHeap} {live live' : Set ι} {ptr ptr' : ι → Ptr} {A A' : ι → Set Word}
  {B : Set Word} {F : ι → Set Ptr} {p : Ptr} {x z : ι}

/-- Each variable points to a trie of its own with the members of its set. -/
structure Represents (s : SetHeap) (live : Set ι) (ptr : ι → Ptr) (A : ι → Set Word)
    (F : ι → Set Ptr) : Prop where
  owns : ∀ x ∈ live, Owns s.nodes 6 (ptr x) (F x)
  members : ∀ x ∈ live, ∀ v, Has s.nodes 6 (ptr x) v ↔ v ∈ A x
  disjoint : ∀ x ∈ live, ∀ y ∈ live, x ≠ y → Disjoint (F x) (F y)

theorem represents_empty (s : SetHeap) (ptr : ι → Ptr) (A : ι → Set Word) :
    Represents s ∅ ptr A fun _ => ∅ := by
  constructor <;> simp

/-- Before the first set is made. -/
theorem represents_nil (s : SetHeap) (ptr : ι → Ptr) (A : ι → Set Word) :
    Represents s {x | x ∈ ([] : List ι)} ptr A fun _ => ∅ := by
  constructor <;> simp

theorem Represents.mono (hr : Represents s live ptr A F) (hsub : live' ⊆ live) :
    Represents s live' ptr A F :=
  ⟨fun x hx => hr.owns x (hsub hx), fun x hx => hr.members x (hsub hx),
    fun x hx y hy => hr.disjoint x (hsub hx) y (hsub hy)⟩

theorem Represents.congr (hr : Represents s live ptr A F) (hptr : ∀ x ∈ live, ptr' x = ptr x)
    (hA : ∀ x ∈ live, A' x = A x) : Represents s live ptr' A' F := by
  refine ⟨fun x hx => ?_, fun x hx v => ?_, hr.disjoint⟩
  · rw [hptr x hx]
    exact hr.owns x hx
  · rw [hptr x hx, hA x hx]
    exact hr.members x hx v

/-- The owner of something else has changed the heap. -/
theorem Represents.frame {E F' : Set Ptr} (hr : Represents s live ptr A F)
    (hm : Moves s.nodes t.nodes E F') (hE : ∀ x ∈ live, Disjoint E (F x)) :
    Represents t live ptr A F := by
  refine ⟨fun x hx => ?_, fun x hx v => ?_, hr.disjoint⟩
  · exact (hr.owns x hx).congr (hm.agree (hr.owns x hx).live (hE x hx))
  · exact ((hr.owns x hx).has_congr (hm.agree (hr.owns x hx).live (hE x hx)) v).trans
      (hr.members x hx v)

theorem Represents.tight_frame {E F' : Set Ptr} (hr : Represents s live ptr A F)
    (ht : ∀ x ∈ live, Tight s.nodes 6 (ptr x)) (hm : Moves s.nodes t.nodes E F')
    (hE : ∀ x ∈ live, Disjoint E (F x)) : ∀ x ∈ live, Tight t.nodes 6 (ptr x) := fun x hx =>
  (hr.owns x hx).tight_congr (hm.agree (hr.owns x hx).live (hE x hx)) (ht x hx)

/-- A set was freed. -/
theorem Represents.free (hr : Represents s live ptr A F) (hz : z ∈ live)
    (hm : Moves s.nodes t.nodes (F z) ∅) : Represents t (live \ {z}) ptr A F :=
  (hr.mono Set.sdiff_subset).frame hm fun x hx => hr.disjoint z hz x hx.1 fun h => hx.2 h.symm

theorem Represents.lookup (hr : Represents s live ptr A F) (hz : z ∈ live) (v : Word) :
    (v ∈ A z → set_lookup levels (ptr z) v s = .ok (1, s)) ∧
      (v ∉ A z → set_lookup levels (ptr z) v s = .ok (0, s)) := by
  obtain ⟨r, hrun, hin, hout⟩ := set_lookup_spec (hr.owns z hz) (show 6 < levels by decide) v
  constructor
  · intro hv
    rw [hrun, hin ((hr.members z hz v).mpr hv)]
  · intro hv
    rw [hrun, hout fun hhas => hv ((hr.members z hz v).mp hhas)]

variable [DecidableEq ι]

/-- A set that owned nothing of the others is assigned to a variable. -/
theorem Represents.assign {E F' : Set Ptr} (hr : Represents s live ptr A F)
    (hm : Moves s.nodes t.nodes E F') (hE : ∀ x ∈ live, x ≠ z → Disjoint E (F x))
    (hown : Owns t.nodes 6 p F') (hhas : ∀ v, Has t.nodes 6 p v ↔ v ∈ B) :
    Represents t (insert z live) (Function.update ptr z p) (Function.update A z B)
      (Function.update F z F') := by
  have hothers : Represents t (live \ {z}) ptr A F :=
    (hr.mono Set.sdiff_subset).frame hm fun x hx => hE x hx.1 hx.2
  have hother : ∀ x ∈ insert z live, x ≠ z → x ∈ live \ {z} := fun x hx hne =>
    ⟨(Set.mem_insert_iff.mp hx).resolve_left hne, hne⟩
  have hfree : ∀ x ∈ insert z live, x ≠ z → Disjoint F' (F x) := by
    intro x hx hne
    have hx' := (hother x hx hne).1
    exact hm.disjoint (hr.owns x hx').live (hE x hx' hne)
  constructor
  · intro x hx
    by_cases hxz : x = z
    · rw [hxz]
      simpa using hown
    · simpa [Function.update_of_ne hxz] using hothers.owns x (hother x hx hxz)
  · intro x hx v
    by_cases hxz : x = z
    · rw [hxz]
      simpa using hhas v
    · simpa [Function.update_of_ne hxz] using hothers.members x (hother x hx hxz) v
  · intro x hx y hy hxy
    by_cases hxz : x = z
    · have hyz : y ≠ z := fun hyz => hxy (hxz.trans hyz.symm)
      simpa [hxz, Function.update_of_ne hyz] using hfree y hy hyz
    · by_cases hyz : y = z
      · simpa [hyz, Function.update_of_ne hxz] using (hfree x hx hxz).symm
      · simpa [Function.update_of_ne hxz, Function.update_of_ne hyz] using
          hothers.disjoint x (hother x hx hxz) y (hother y hy hyz) hxy

/-- An operation worked on the set of a variable in place. -/
theorem Represents.change {C : Word → Prop} (hr : Represents s live ptr A F) (hz : z ∈ live)
    (hb : Becomes s t 6 (ptr z) (F z) C) (hC : ∀ v, C v ↔ v ∈ B) :
    ∃ F', Represents t live ptr (Function.update A z B) F' := by
  obtain ⟨F', hown, hm, hhas⟩ := hb
  have hassign := hr.assign (z := z) hm (fun x hx hne => hr.disjoint z hz x hx hne.symm) hown
    fun v => (hhas v).trans (hC v)
  rw [Function.update_eq_self, Set.insert_eq_of_mem hz] at hassign
  exact ⟨_, hassign⟩

theorem Represents.change_tight {C : Word → Prop} (hr : Represents s live ptr A F)
    (ht : ∀ x ∈ live, Tight s.nodes 6 (ptr x)) (hz : z ∈ live)
    (hb : Becomes s t 6 (ptr z) (F z) C) (hnew : Tight t.nodes 6 (ptr z)) :
    ∀ x ∈ live, Tight t.nodes 6 (ptr x) := by
  intro x hx
  obtain ⟨F', -, hm, -⟩ := hb
  by_cases hxz : x = z
  · rw [hxz]
    exact hnew
  · have hothers : Represents s (live \ {z}) ptr A F := hr.mono Set.sdiff_subset
    exact hothers.tight_frame (fun y hy => ht y hy.1) hm
      (fun y hy => hr.disjoint z hz y hy.1 fun h => hy.2 h.symm) x ⟨hx, hxz⟩

/-- `z = set_alloc()` -/
theorem Represents.alloc_effect (hr : Represents s live ptr A F) (z : ι) :
    Ends set_alloc (fun p t => (∃ F', Represents t (insert z live) (Function.update ptr z p)
      (Function.update A z ∅) F') ∧ ((∀ x ∈ live, Tight s.nodes 6 (ptr x)) →
      ∀ x ∈ insert z live, Tight t.nodes 6 (Function.update ptr z p x))) s := by
  refine set_alloc_effect.mono ?_
  rintro p t ⟨⟨hown, hm, hempty⟩, hbare⟩
  refine ⟨⟨_, hr.assign hm (fun x _ _ => Set.empty_disjoint _) hown
    fun v => iff_of_false (hempty v) id⟩, fun ht x hx => ?_⟩
  by_cases hxz : x = z
  · rw [hxz, Function.update_self]
    exact hbare.tight
  · rw [Function.update_of_ne hxz]
    exact hr.tight_frame ht hm (fun y _ => Set.empty_disjoint _) x
      ((Set.mem_insert_iff.mp hx).resolve_left hxz)

theorem Represents.alloc (hr : Represents s live ptr A F) (z : ι) :
    Ends set_alloc (fun p t => ∃ F', Represents t (insert z live) (Function.update ptr z p)
      (Function.update A z ∅) F') s :=
  (hr.alloc_effect z).mono fun _ _ h => h.1

/-- A heap with an empty set at 1. -/
def oneSet : SetHeap :=
  ⟨Function.update (fun _ => none) 1 (some (set_mk MAX_OFFSET)), List.range' 2 100⟩

theorem owns_oneSet : Owns oneSet.nodes 6 1 {1} := owns_mk (by decide) rfl

theorem not_has_oneSet (v : Word) : ¬Has oneSet.nodes 6 1 v := not_has_mk rfl

end EquivChecker.SetTrie
