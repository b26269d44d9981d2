import EquivChecker.SetFamily

/-!
# The tries refine sets

Programs work on variables that hold pointers to sets. A program over finite sets has
the same variables, which hold sets of values.
-/

namespace EquivChecker.SetTrie

open OwnedHeap

/-- One call, with the variables it works on. The destination comes first. -/
inductive SetOp
  | alloc (z : ℕ)
  | insert (z : ℕ) (v : Word)
  | add_mem (z : ℕ) (base : Word) (n : ℕ)
  | copy (z x : ℕ)
  | union (z x y : ℕ)
  | union_inplace (z x : ℕ)
  | intersection (z x y : ℕ)
  | intersection_inplace (z x : ℕ)

namespace SetOp

def exec (ptr : ℕ → Ptr) : SetOp → SetM (ℕ → Ptr)
  | alloc z => do
    let p ← set_alloc
    pure (Function.update ptr z p)
  | insert z v => do
    let _ ← set_insert levels (ptr z) v
    pure ptr
  | add_mem z base n => do
    SetTrie.add_mem (ptr z) base n 0
    pure ptr
  | copy z x => do
    set_copy levels (ptr z) (ptr x)
    pure ptr
  | union z x y => do
    set_union levels (ptr z) (ptr x) (ptr y)
    pure ptr
  | union_inplace z x => do
    set_union_inplace levels (ptr z) (ptr x)
    pure ptr
  | intersection z x y => do
    set_intersection levels (ptr z) (ptr x) (ptr y)
    pure ptr
  | intersection_inplace z x => do
    set_intersection_inplace levels (ptr z) (ptr x)
    pure ptr

def execAll (ptr : ℕ → Ptr) : List SetOp → SetM (ℕ → Ptr)
  | [] => pure ptr
  | op :: ops => do
    let ptr ← op.exec ptr
    execAll ptr ops

def dst : SetOp → ℕ
  | alloc z | insert z _ | add_mem z _ _ | copy z _ | union z _ _ | union_inplace z _
  | intersection z _ _ | intersection_inplace z _ => z

def sources : SetOp → List ℕ
  | alloc _ | insert _ _ | add_mem _ _ _ => []
  | copy _ x | union_inplace _ x | intersection_inplace _ x => [x]
  | union _ x y | intersection _ x y => [x, y]

def isAlloc : SetOp → Bool
  | alloc _ => true
  | _ => false

/-- The operands are sets, and the destination is none of the sources. -/
def Legal (live : List ℕ) (op : SetOp) : Prop :=
  (op.isAlloc = false → op.dst ∈ live) ∧ ∀ x ∈ op.sources, x ∈ live ∧ x ≠ op.dst

instance (live : List ℕ) (op : SetOp) : Decidable (op.Legal live) :=
  inferInstanceAs (Decidable ((op.isAlloc = false → op.dst ∈ live) ∧
    ∀ x ∈ op.sources, x ∈ live ∧ x ≠ op.dst))

def AllLegal : List ℕ → List SetOp → Prop
  | _, [] => True
  | live, op :: ops => op.Legal live ∧ AllLegal (op.dst :: live) ops

instance : (live : List ℕ) → (ops : List SetOp) → Decidable (AllLegal live ops)
  | _, [] => inferInstanceAs (Decidable True)
  | live, op :: ops =>
    have := instDecidableAllLegal (op.dst :: live) ops
    inferInstanceAs (Decidable (op.Legal live ∧ AllLegal (op.dst :: live) ops))

/-- What the operation means for sets: the new contents of its destination. -/
def meaning (A : ℕ → Set Word) : SetOp → Set Word
  | alloc _ => ∅
  | insert z v => Insert.insert v (A z)
  | add_mem z base n => A z ∪ {w | ∃ j < n, w = base + BitVec.ofNat 32 j}
  | copy _ x => A x
  | union _ x y => A x ∪ A y
  | union_inplace z x => A z ∪ A x
  | intersection _ x y => A x ∩ A y
  | intersection_inplace z x => A z ∩ A x

def meaningAll (A : ℕ → Set Word) : List SetOp → ℕ → Set Word
  | [] => A
  | op :: ops => meaningAll (Function.update A op.dst (op.meaning A)) ops

def liveAll (live : List ℕ) : List SetOp → List ℕ
  | [] => live
  | op :: ops => liveAll (op.dst :: live) ops

end SetOp

/-- No child of a source is hidden in the destination: copies, unions and intersections go to
nodes without children, and an in-place intersection meets no child that only its source has. -/
def SetOp.Tidy (s : SetHeap) (ptr : ℕ → Ptr) : SetOp → Prop
  | copy z _ | union z _ _ | intersection z _ _ => Bare s.nodes (ptr z)
  | intersection_inplace z x => Covers s.nodes 6 (ptr z) (ptr x)
  | _ => True

variable {s t : SetHeap} {live : List ℕ} {ptr : ℕ → Ptr} {A : ℕ → Set Word} {B : Set Word}
  {F : ℕ → Set Ptr} {p : Ptr} {z : ℕ}

/-- One call keeps the variables and the sets together, and a tidy one hides no children. -/
theorem SetOp.exec_effect (hr : Represents s {x | x ∈ live} ptr A F) (op : SetOp)
    (hlegal : op.Legal live) :
    Ends (op.exec ptr) (fun ptr' t => (∃ F', Represents t {x | x ∈ op.dst :: live} ptr'
      (Function.update A op.dst (op.meaning A)) F') ∧ ((∀ x ∈ live, Tight s.nodes 6 (ptr x)) →
      op.Tidy s ptr → ∀ x ∈ op.dst :: live, Tight t.nodes 6 (ptr' x))) s := by
  obtain ⟨hdst, hsrc⟩ := hlegal
  have hchange : ∀ {C : Word → Prop} {t : SetHeap}, op.dst ∈ live →
      Becomes s t 6 (ptr op.dst) (F op.dst) C → (∀ v, C v ↔ v ∈ op.meaning A) →
      ((∀ x ∈ live, Tight s.nodes 6 (ptr x)) → op.Tidy s ptr → Tight t.nodes 6 (ptr op.dst)) →
      (∃ F', Represents t {x | x ∈ op.dst :: live} ptr (Function.update A op.dst (op.meaning A)) F') ∧
      ((∀ x ∈ live, Tight s.nodes 6 (ptr x)) → op.Tidy s ptr →
        ∀ x ∈ op.dst :: live, Tight t.nodes 6 (ptr x)) := by
    intro C t hz hb hC hnew
    have hsub : ∀ x ∈ op.dst :: live, x ∈ live := by
      intro x hx
      rcases List.mem_cons.mp hx with rfl | hx
      · exact hz
      · exact hx
    obtain ⟨F', hr'⟩ := hr.change hz hb hC
    exact ⟨⟨F', hr'.mono hsub⟩, fun ht htidy x hx =>
      hr.change_tight ht hz hb (hnew ht htidy) x (hsub x hx)⟩
  cases op with
  | alloc z =>
    refine (hr.alloc_effect z).bind ?_
    rintro p t ⟨⟨F', hr'⟩, htight⟩
    exact ⟨⟨F', hr'.mono fun x hx => List.mem_cons.mp hx⟩, fun ht _ x hx =>
      htight ht x (List.mem_cons.mp hx)⟩
  | insert z v =>
    have hz := hdst rfl
    refine (set_insert_effect (hr.owns z hz) (by decide) v).bind ?_
    rintro - t ⟨⟨hb, -⟩, htight⟩
    refine hchange hz hb (fun w => ?_) fun ht _ => htight (ht z hz)
    rw [hr.members z hz, agree_top, or_comm]
    rfl
  | add_mem z base n =>
    have hz := hdst rfl
    refine (add_mem_effect (hr.owns z hz) base n 0).bind fun _ t hb =>
      hchange hz hb.1 (fun w => ?_) fun ht _ => hb.2 (ht z hz)
    rw [hr.members z hz]
    simp [meaning]
  | copy z x =>
    have hz := hdst rfl
    obtain ⟨hx, hne⟩ := hsrc x (by simp [sources])
    exact (set_copy_effect (hr.owns z hz) (hr.owns x hx) (hr.disjoint z hz x hx hne.symm)
      (by decide)).bind fun _ t hb => hchange hz hb.1 (hr.members x hx) fun _ hbare => hb.2 hbare
  | union z x y =>
    have hz := hdst rfl
    obtain ⟨hx, hxz⟩ := hsrc x (by simp [sources])
    obtain ⟨hy, hyz⟩ := hsrc y (by simp [sources])
    refine (set_union_effect (hr.owns z hz) (hr.owns x hx) (hr.owns y hy)
      (hr.disjoint z hz x hx hxz.symm) (hr.disjoint z hz y hy hyz.symm) (by decide)).bind fun _ t hb =>
      hchange hz hb.1 (fun v => ?_) fun _ hbare => hb.2 hbare
    exact or_congr (hr.members x hx v) (hr.members y hy v)
  | union_inplace z x =>
    have hz := hdst rfl
    obtain ⟨hx, hne⟩ := hsrc x (by simp [sources])
    refine (set_union_inplace_effect (hr.owns z hz) (hr.owns x hx) (hr.disjoint z hz x hx hne.symm)
      (by decide)).bind fun _ t hb => hchange hz hb.1 (fun v => ?_) fun ht _ => hb.2 (ht z hz)
    exact or_congr (hr.members z hz v) (hr.members x hx v)
  | intersection z x y =>
    have hz := hdst rfl
    obtain ⟨hx, hxz⟩ := hsrc x (by simp [sources])
    obtain ⟨hy, hyz⟩ := hsrc y (by simp [sources])
    refine (set_intersection_effect (hr.owns z hz) (hr.owns x hx) (hr.owns y hy)
      (hr.disjoint z hz x hx hxz.symm) (hr.disjoint z hz y hy hyz.symm) (by decide)).bind fun _ t hb =>
      hchange hz hb.1 (fun v => ?_) fun _ hbare => hb.2 hbare
    exact and_congr (hr.members x hx v) (hr.members y hy v)
  | intersection_inplace z x =>
    have hz := hdst rfl
    obtain ⟨hx, hne⟩ := hsrc x (by simp [sources])
    refine (set_intersection_inplace_effect (hr.owns z hz) (hr.owns x hx)
      (hr.disjoint z hz x hx hne.symm) (by decide)).bind fun _ t hb =>
      hchange hz hb.1 (fun v => ?_) fun ht hcovers => hb.2 ⟨ht z hz, hcovers⟩
    exact and_congr (hr.members z hz v) (hr.members x hx v)

theorem SetOp.exec_spec (hr : Represents s {x | x ∈ live} ptr A F) (op : SetOp)
    (hlegal : op.Legal live) :
    Ends (op.exec ptr) (fun ptr' t => ∃ F', Represents t {x | x ∈ op.dst :: live} ptr'
      (Function.update A op.dst (op.meaning A)) F') s :=
  (op.exec_effect hr hlegal).mono fun _ _ h => h.1

theorem SetOp.execAll_spec (hr : Represents s {x | x ∈ live} ptr A F) (ops : List SetOp)
    (hlegal : AllLegal live ops) :
    Ends (execAll ptr ops) (fun ptr' t => ∃ F', Represents t {x | x ∈ liveAll live ops} ptr'
      (meaningAll A ops) F') s := by
  induction ops generalizing s live ptr A F with
  | nil => exact Wp.pure_iff.mpr ⟨F, hr⟩
  | cons op ops ih =>
    refine (op.exec_spec hr hlegal.1).bind ?_
    rintro ptr' t ⟨F', hr'⟩
    exact ih hr' hlegal.2

/-- What the code tells about a set: lookups, and the result of one more insertion. -/
structure Answers (s : SetHeap) (p : Ptr) (B : Set Word) : Prop where
  lookup_member : ∀ v ∈ B, set_lookup levels p v s = .ok (1, s)
  lookup_other : ∀ v ∉ B, set_lookup levels p v s = .ok (0, s)
  insert_result : ∀ v, Ends (set_insert levels p v) (fun r _ => r ≠ 0 ↔ v ∈ B) s

theorem Represents.answers (hr : Represents s {x | x ∈ live} ptr A F) (hz : z ∈ live) :
    Answers s (ptr z) (A z) where
  lookup_member v := (hr.lookup hz v).1
  lookup_other v := (hr.lookup hz v).2
  insert_result v := by
    refine (set_insert_spec (hr.owns z hz) (show 6 < levels by decide) v).mono ?_
    rintro r t ⟨-, hres⟩
    exact hres.trans (hr.members z hz v)

/-- After any calls, the tries answer as the sets do. -/
theorem trie_refines_sets (s : SetHeap) (ptr : ℕ → Ptr) (ops : List SetOp)
    (hlegal : SetOp.AllLegal [] ops) :
    Ends (SetOp.execAll ptr ops) (fun ptr' t => ∀ z ∈ SetOp.liveAll [] ops,
      Answers t (ptr' z) (SetOp.meaningAll (fun _ => ∅) ops z)) s := by
  refine (SetOp.execAll_spec (represents_nil s ptr fun _ => ∅) ops hlegal).mono ?_
  rintro ptr' t ⟨F', hr'⟩ z hz
  exact hr'.answers hz

/-- Two overlapping sets and their intersection. -/
def overlap : List SetOp :=
  [.alloc 0, .insert 0 5, .alloc 1, .add_mem 1 4 3, .alloc 2, .intersection 2 0 1]

theorem trie_refines_sets_overlap : ∃ ptr t,
    SetOp.execAll (fun _ => NULL) overlap ⟨fun _ => none, List.range' 1 50⟩ = .ok (ptr, t) ∧
      set_lookup levels (ptr 2) 5 t = .ok (1, t) ∧ set_lookup levels (ptr 2) 4 t = .ok (0, t) := by
  have hends := fun ops hlegal hok => Wp.of_isOk
    (trie_refines_sets ⟨fun _ => none, List.range' 1 50⟩ (fun _ => NULL) ops hlegal) hok
  obtain ⟨ptr, t, hrun, hanswers⟩ := hends overlap (by decide) (by decide +kernel)
  have htwo := hanswers 2 (by decide)
  refine ⟨ptr, t, hrun, htwo.lookup_member 5 ?_, htwo.lookup_other 4 ?_⟩
  · exact ⟨.inl rfl, .inr ⟨1, by decide, by decide⟩⟩
  · rintro ⟨h | h, -⟩
    · exact absurd h (by decide)
    · exact h

end EquivChecker.SetTrie
