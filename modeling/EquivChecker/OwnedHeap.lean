import Mathlib.Data.Set.Basic
import Mathlib.Data.Set.Lattice
import Mathlib.Logic.Function.Basic
import Mathlib.Order.CompletePartialOrder

/-!
# Heaps changed by an owner of some cells

`Moves h h' F F'`: an owner of the cells `F` has changed the heap, and now owns `F'`,
a part of what it owned and of what was free. All other cells are as before.
-/

namespace EquivChecker.OwnedHeap

variable {P N : Type} {h h' h'' : P → Option N} {F F' F'' B : Set P} {p : P}

def Live (h : P → Option N) (q : P) : Prop := h q ≠ none

structure Moves (h h' : P → Option N) (F F' : Set P) : Prop where
  frame : ∀ q, q ∉ F → Live h q → h' q = h q
  fresh : ∀ q ∈ F', q ∈ F ∨ ¬Live h q

theorem Moves.refl (h : P → Option N) (F : Set P) : Moves h h F F :=
  ⟨fun _ _ _ => rfl, fun _ hq => .inl hq⟩

theorem Moves.trans (hm : Moves h h' F F') (hm' : Moves h' h'' F' F'') : Moves h h'' F F'' where
  frame q hq hlive := by
    have heq := hm.frame q hq hlive
    have hq' : q ∉ F' := fun hq' => (hm.fresh q hq').elim hq fun hdead => hdead hlive
    rw [hm'.frame q hq' (by rw [Live, heq]; exact hlive), heq]
  fresh q hq := by
    by_cases hqF : q ∈ F
    · exact .inl hqF
    · refine .inr fun hlive => ?_
      rcases hm'.fresh q hq with hq' | hdead
      · exact (hm.fresh q hq').elim hqF fun hdead => hdead hlive
      · exact hdead (by rw [Live, hm.frame q hqF hlive]; exact hlive)

/-- Cells may be given up. -/
theorem Moves.drop (hm : Moves h h' F F') (hsub : F'' ⊆ F') : Moves h h' F F'' :=
  ⟨hm.frame, fun q hq => hm.fresh q (hsub hq)⟩

/-- The owner of more cells may do the same. -/
theorem Moves.widen (hm : Moves h h' F F') (hsub : F ⊆ B) : Moves h h' B F' :=
  ⟨fun q hq hlive => hm.frame q (fun hF => hq (hsub hF)) hlive,
    fun q hq => (hm.fresh q hq).imp (fun hF => hsub hF) id⟩

theorem Moves.union (hm : Moves h h' F F') (B : Set P) : Moves h h' (F ∪ B) (F' ∪ B) where
  frame q hq hlive := hm.frame q (fun hF => hq (.inl hF)) hlive
  fresh q hq := by
    rcases hq with hq | hq
    · exact (hm.fresh q hq).imp .inl id
    · exact .inl (.inr hq)

/-- What others own is as before, and still theirs. -/
theorem Moves.agree (hm : Moves h h' F F') (hlive : ∀ q ∈ B, Live h q) (hdisj : Disjoint F B) :
    ∀ q ∈ B, h' q = h q := fun q hq =>
  hm.frame q (fun hF => Set.disjoint_left.mp hdisj hF hq) (hlive q hq)

theorem Moves.disjoint (hm : Moves h h' F F') (hlive : ∀ q ∈ B, Live h q) (hdisj : Disjoint F B) :
    Disjoint F' B := by
  refine Set.disjoint_left.mpr fun q hq hB => ?_
  rcases hm.fresh q hq with hF | hdead
  · exact Set.disjoint_left.mp hdisj hF hB
  · exact hdead (hlive q hB)

variable [DecidableEq P]

theorem moves_alloc {n : N} (hp : ¬Live h p) : Moves h (Function.update h p (some n)) ∅ {p} where
  frame q _ hlive := by
    have hne : q ≠ p := by
      rintro rfl
      exact hp hlive
    rw [Function.update_of_ne hne]
  fresh q hq := .inr (by rw [Set.mem_singleton_iff.mp hq]; exact hp)

/-- A cell that is owned is overwritten or freed. -/
theorem moves_update {o : Option N} (hF : F ⊆ {p}) : Moves h (Function.update h p o) {p} F where
  frame q hq _ := by
    have hne : q ≠ p := hq
    rw [Function.update_of_ne hne]
  fresh q hq := .inl (hF hq)

end EquivChecker.OwnedHeap
