import EquivChecker.SetSharing

/-!
# Masks and children agree

A node with levels below it has a child exactly under each set mask bit, and a leaf has
no children. The calls keep this as long as no `set_intersection_inplace` meets a child
that only its source has: the copy of such a child ends under a cleared mask bit.
-/

namespace EquivChecker.SetTrie

open OwnedHeap

/-- The mask of a node tells which children it has, and each of them is one level below. -/
structure WellFormed (h : Ptr → Option SetT) (n : SetT) : Prop where
  mask : 0 < n.offset → ∀ i : Fin 32, n.children i ≠ NULL ↔ n.mask.getLsbD i = true
  child : 0 < n.offset → ∀ i, n.children i ≠ NULL →
    ∃ c, h (n.children i) = some c ∧ c.offset + 5 = n.offset
  leaf : n.offset = 0 → ∀ i, n.children i = NULL

/-- A node as `set_alloc` returns it. -/
def Fresh (h : Ptr → Option SetT) (p : Ptr) : Prop :=
  match h p with
  | some n => n.mask = 0#32 ∧ n.offset = MAX_OFFSET ∧ ∀ i, n.children i = NULL
  | none => False

variable {h h' : Ptr → Option SetT} {s t : SetHeap} {k : ℕ} {p q : Ptr} {F : Set Ptr} {n : SetT}
  {path : List (Fin 32)}

theorem fresh_iff : Fresh h p ↔
    ∃ n ∈ h p, n.mask = 0#32 ∧ n.offset = MAX_OFFSET ∧ ∀ i, n.children i = NULL := by
  rw [Fresh]
  cases h p with
  | none => simp
  | some n => simp

instance : Decidable (Fresh h p) := decidable_of_iff' _ fresh_iff

theorem Fresh.bare (hp : Fresh h p) : Bare h p := by
  unfold Fresh at hp
  split at hp
  · rename_i n hn
    exact ⟨n, hn, hp.2.2⟩
  · exact hp.elim

theorem Owns.root_wellFormed (ho : Owns h k p F) (ht : Tight h k p) :
    ∃ n, h p = some n ∧ WellFormed h n := by
  cases k with
  | zero =>
    obtain ⟨-, ⟨n, hn, hoff, hnull⟩, -⟩ := ho
    exact ⟨n, hn, by omega, by omega, fun _ => hnull⟩
  | succ k =>
    obtain ⟨n, G, hb, hmask, -, -⟩ := ho.branch
    have hoff := hb.offset
    refine ⟨n, hb.node, fun _ i => ⟨fun hi => (ht.child hb.node hi).1, hmask i⟩, fun _ i hi => ?_,
      fun hzero => ?_⟩
    · obtain ⟨c, hc, hcoff⟩ := (hb.child hi).node
      exact ⟨c, hc, by omega⟩
    · omega

theorem Owns.wellFormed (ho : Owns h k p F) (ht : Tight h k p) (hq : follow h p path = some q) :
    ∃ n, h q = some n ∧ WellFormed h n := by
  induction path generalizing k p F with
  | nil =>
    cases hq
    exact ho.root_wellFormed ht
  | cons i path ih =>
    cases k with
    | zero =>
      obtain ⟨k', n, G, hb, -, hi, -⟩ := ho.follow_step hq
      obtain ⟨-, ⟨n', hn', -, hnull⟩, -⟩ := ho
      cases hb.node.symm.trans hn'
      exact absurd (hnull i) hi
    | succ k =>
      obtain ⟨n, G, hb, -, -, -⟩ := ho.branch
      obtain ⟨hi, hrest⟩ := (follow_cons hb.node).mp hq
      exact ih (hb.child hi) (ht.child hb.node hi).2 hrest

/-- The live sets are a family of tries without children under cleared mask bits. -/
def Neat (s : SetHeap) (live : List ℕ) (ptr : ℕ → Ptr) : Prop :=
  ∃ A F, Represents s {x | x ∈ live} ptr A F ∧ ∀ x ∈ live, Tight s.nodes 6 (ptr x)

namespace SetState

/-- Copies, unions and intersections go to new sets. -/
def ToFresh (S : SetState) : SetCall → Prop
  | .op (.copy z _) | .op (.union z _ _) | .op (.intersection z _ _) => Fresh S.heap.nodes (S.ptr z)
  | _ => True

/-- An in-place intersection meets no child that only its source has. -/
def Covering (S : SetState) : SetCall → Prop
  | .op (.intersection_inplace z x) => Covers S.heap.nodes 6 (S.ptr z) (S.ptr x)
  | _ => True

instance (S : SetState) (c : SetCall) : Decidable (S.ToFresh c) := by
  unfold ToFresh
  split <;> infer_instance

instance (S : SetState) (c : SetCall) : Decidable (S.Covering c) := by
  unfold Covering
  split <;> infer_instance

/-- The invariant holds of every node of every live set. -/
def AllWellFormed (S : SetState) : Prop :=
  ∀ z ∈ S.live, ∀ q, S.Reached z q → ∃ n, S.heap.nodes q = some n ∧ WellFormed S.heap.nodes n

variable {S T : SetState} {c : SetCall} {s : SetHeap} {ptr : ℕ → Ptr}

theorem neat_allWellFormed (hS : Neat S.heap S.live S.ptr) : S.AllWellFormed := by
  obtain ⟨A, F, hr, htight⟩ := hS
  rintro z hz q ⟨path, hq⟩
  exact (hr.owns z hz).wellFormed (htight z hz) hq

theorem tidy_of_toFresh (hfresh : S.ToFresh c) (hcover : S.Covering c) : c.Tidy S.heap S.ptr := by
  cases c with
  | free z => trivial
  | op o =>
    cases o with
    | copy z x => exact Fresh.bare hfresh
    | union z x y => exact Fresh.bare hfresh
    | intersection z x y => exact Fresh.bare hfresh
    | intersection_inplace z x => exact hcover
    | _ => trivial

theorem neat_exec (hS : Neat S.heap S.live S.ptr) (hlegal : c.Legal S.live) (hfresh : S.ToFresh c)
    (hcover : S.Covering c) :
    Ends (c.exec S.ptr) (fun ptr t => Neat t (c.relive S.live) ptr) S.heap := by
  obtain ⟨A, F, hr, htight⟩ := hS
  refine (SetCall.exec_effect hr hlegal).mono ?_
  rintro ptr t ⟨⟨F', hr'⟩, hkeeps⟩
  exact ⟨_, F', hr', hkeeps htight (tidy_of_toFresh hfresh hcover)⟩

theorem reaches_neat (hS : Reaches (fun S c => S.ToFresh c ∧ S.Covering c) ⟨s, ptr, []⟩ S) :
    Neat S.heap S.live S.ptr := by
  induction hS with
  | start =>
    exact ⟨fun _ => ∅, _, represents_nil s ptr _, fun x hx => absurd hx List.not_mem_nil⟩
  | step _ hlegal hok hstep ih =>
    obtain ⟨ptr, s, hexec, rfl⟩ := step_ok hstep
    exact (neat_exec ih hlegal hok.1 hok.2).of_ok hexec

/-- In runs without in-place intersections that meet a child of their source alone, the masks
and the children of all nodes agree. -/
theorem masks_show_children (hS : Reaches (fun S c => S.ToFresh c ∧ S.Covering c) ⟨s, ptr, []⟩ S) :
    S.AllWellFormed :=
  neat_allWellFormed (reaches_neat hS)

/-- Two sets, their union and their intersection, which is then intersected with the union. -/
def narrow : List SetCall :=
  [.op (.alloc 0), .op (.insert 0 62), .op (.alloc 1), .op (.add_mem 1 62 4), .op (.alloc 2),
    .op (.union 2 0 1), .op (.alloc 3), .op (.intersection 3 2 0), .op (.intersection_inplace 2 3)]

theorem masks_show_children_narrow : ∃ S,
    replay (fun S c => S.ToFresh c ∧ S.Covering c) narrow
      ⟨⟨fun _ => none, List.range' 1 50⟩, fun _ => NULL, []⟩ = some S ∧ S.AllWellFormed := by
  have hlive : (replay (fun S c => S.ToFresh c ∧ S.Covering c) narrow
      ⟨⟨fun _ => none, List.range' 1 50⟩, fun _ => NULL, []⟩).isSome = true := by
    decide +kernel
  obtain ⟨S, hrun⟩ := Option.isSome_iff_exists.mp hlive
  exact ⟨S, hrun, masks_show_children (Reaches.start.replay hrun)⟩

/-- The empty set and a set with one member are intersected in place. -/
def leak : List SetCall :=
  [.op (.alloc 0), .op (.alloc 1), .op (.insert 1 5), .op (.intersection_inplace 0 1)]

/-- The root of the empty set gets a child under a cleared mask bit. -/
theorem inplace_hides_child : ¬∀ (s : SetHeap) (ptr : ℕ → Ptr) (S : SetState),
    Reaches (fun S c => S.ToFresh c) ⟨s, ptr, []⟩ S → S.AllWellFormed := by
  intro hall
  have hlive : (replay (fun S c => S.ToFresh c) leak
      ⟨⟨fun _ => none, List.range' 1 50⟩, fun _ => NULL, []⟩).map (fun S =>
        (S.live, S.ptr 0, (S.heap.nodes 1).map fun n => (n.offset, n.mask.getLsbD 0, n.children 0))) =
      some ([0, 1, 1, 0], 1, some (30, false, 9)) := by
    decide +kernel
  obtain ⟨S, hrun, heq⟩ := Option.map_eq_some_iff.mp hlive
  obtain ⟨hlive, heq⟩ := Prod.mk.inj heq
  obtain ⟨hroot, hnode⟩ := Prod.mk.inj heq
  obtain ⟨n, hn, heq⟩ := Option.map_eq_some_iff.mp hnode
  obtain ⟨hoff, heq⟩ := Prod.mk.inj heq
  obtain ⟨hmask, hchild⟩ := Prod.mk.inj heq
  obtain ⟨n', hn', hwf⟩ := hall _ _ S (Reaches.start.replay hrun) 0 (by simp [hlive]) 1
    ⟨[], by rw [hroot]; rfl⟩
  cases hn.symm.trans hn'
  have hbit := (hwf.mask (by omega) 0).mp (by rw [hchild]; decide)
  rw [show ((0 : Fin 32) : ℕ) = 0 from rfl, hmask] at hbit
  cases hbit

end SetState

end EquivChecker.SetTrie
