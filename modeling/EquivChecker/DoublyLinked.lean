import Mathlib.Data.List.Basic

/-!
# Doubly linked lists

The links are two functions on the nodes. A list is linked between `p` and `q` when
its nodes point to one another, the first back to `p` and the last on to `q`. A node
is pushed or removed by a change of the links of its neighbours.
-/

namespace EquivChecker

variable {α : Type}

def Linked (next prev : α → α) : α → List α → α → Prop
  | _, [], _ => True
  | p, a :: l, q => prev a = p ∧ next a = l.headD q ∧ Linked next prev a l q

namespace Linked
variable {next next' prev prev' : α → α} {p q a b : α} {l l₁ l₂ : List α}

theorem append_iff : Linked next prev p (l₁ ++ l₂) q ↔
    Linked next prev p l₁ (l₂.headD q) ∧ Linked next prev (l₁.getLastD p) l₂ q := by
  induction l₁ generalizing p with
  | nil => exact ⟨fun h => ⟨trivial, h⟩, And.right⟩
  | cons a l₁ ih =>
    have hhead : (l₁ ++ l₂).headD q = l₁.headD (l₂.headD q) := by cases l₁ <;> rfl
    simp only [List.cons_append, Linked, hhead, ih, List.getLastD_cons, and_assoc]

/-- The predecessors are the list behind its start. -/
theorem map_prev (h : Linked next prev p l q) : l.map prev = (p :: l).dropLast := by
  induction l generalizing p with
  | nil => rfl
  | cons a l ih =>
    obtain ⟨ha, -, hl⟩ := h
    rw [List.map_cons, ha, ih hl]
    rfl

theorem congr (h : Linked next prev p l q) (hnext : ∀ x ∈ l, next' x = next x)
    (hprev : ∀ x ∈ l, prev' x = prev x) : Linked next' prev' p l q := by
  induction l generalizing p with
  | nil => trivial
  | cons a l ih =>
    obtain ⟨ha, ha', hl⟩ := h
    refine ⟨(hprev a List.mem_cons_self).trans ha, (hnext a List.mem_cons_self).trans ha', ?_⟩
    exact ih hl (fun x hx => hnext x (List.mem_cons_of_mem a hx))
      fun x hx => hprev x (List.mem_cons_of_mem a hx)

/-- The first node gets another predecessor. -/
theorem set_prev [DecidableEq α] (h : Linked next prev p l q) (hnodup : l.Nodup)
    (hnext : ∀ x ∈ l, next' x = next x)
    (hprev : ∀ x ∈ l, prev' x = if x = l.headD q then b else prev x) :
    Linked next' prev' b l q := by
  cases l with
  | nil => trivial
  | cons a l =>
    have ha := (List.nodup_cons.mp hnodup).1
    refine ⟨(hprev a List.mem_cons_self).trans (if_pos rfl),
      (hnext a List.mem_cons_self).trans h.2.1, ?_⟩
    refine h.2.2.congr (fun x hx => hnext x (List.mem_cons_of_mem a hx)) fun x hx => ?_
    refine (hprev x (List.mem_cons_of_mem a hx)).trans (if_neg ?_)
    rintro rfl
    exact ha hx

/-- The last node gets another successor. -/
theorem set_next [DecidableEq α] (h : Linked next prev p l q) (hnodup : l.Nodup)
    (hnext : ∀ x ∈ l, next' x = if x = l.getLastD p then b else next x)
    (hprev : ∀ x ∈ l, prev' x = prev x) : Linked next' prev' p l b := by
  rcases List.eq_nil_or_concat' l with rfl | ⟨l, a, rfl⟩
  · trivial
  · obtain ⟨hl, ha, -, -⟩ := append_iff.mp h
    have hne : ∀ x ∈ l, x ≠ a := fun x hx =>
      (List.nodup_append.mp hnodup).2.2 x hx a List.mem_cons_self
    have hlast : (l ++ [a]).getLastD p = a := by simp
    refine append_iff.mpr ⟨?_, (hprev a (by simp)).trans ha, ?_, trivial⟩
    · refine hl.congr (fun x hx => ?_) fun x hx => hprev x (List.mem_append_left [a] hx)
      rw [hnext x (List.mem_append_left [a] hx), hlast, if_neg (hne x hx)]
    · rw [hnext a (by simp), hlast, if_pos rfl]
      rfl

theorem push [DecidableEq α] (h : Linked next prev p l q) (hnodup : l.Nodup) (ha : prev' a = p)
    (ha' : next' a = l.headD q) (hnext : ∀ x ∈ l, next' x = next x)
    (hprev : ∀ x ∈ l, prev' x = if x = l.headD q then a else prev x) :
    Linked next' prev' p (a :: l) q :=
  ⟨ha, ha', h.set_prev hnodup hnext hprev⟩

/-- A node knows its neighbours. -/
theorem neighbours (h : Linked next prev p (l₁ ++ a :: l₂) q) :
    prev a = l₁.getLastD p ∧ next a = l₂.headD q := by
  obtain ⟨-, ha, ha', -⟩ := append_iff.mp h
  exact ⟨ha, ha'⟩

/-- The neighbours of the removed node are linked to each other. -/
theorem remove [DecidableEq α] (h : Linked next prev p (l₁ ++ a :: l₂) q)
    (hnodup : (l₁ ++ l₂).Nodup) (hp : p ∉ l₂) (hq : q ∉ l₁)
    (hnext : ∀ x ∈ l₁ ++ l₂, next' x = if x = l₁.getLastD p then l₂.headD q else next x)
    (hprev : ∀ x ∈ l₁ ++ l₂, prev' x = if x = l₂.headD q then l₁.getLastD p else prev x) :
    Linked next' prev' p (l₁ ++ l₂) q := by
  obtain ⟨h₁, -, -, h₂⟩ := append_iff.mp h
  obtain ⟨hnodup₁, hnodup₂, hdisjoint⟩ := List.nodup_append.mp hnodup
  have hlast : ∀ x ∈ l₂, x ≠ l₁.getLastD p := by
    rintro x hx rfl
    rcases List.eq_nil_or_concat' l₁ with rfl | ⟨l, c, rfl⟩
    · exact hp hx
    · rw [show (l ++ [c]).getLastD p = c by simp] at hx
      exact hdisjoint c (by simp) c hx rfl
  have hhead : ∀ x ∈ l₁, x ≠ l₂.headD q := by
    rintro x hx rfl
    cases l₂ with
    | nil => exact hq hx
    | cons c l => exact hdisjoint c hx c List.mem_cons_self rfl
  refine append_iff.mpr ⟨h₁.set_next hnodup₁ (fun x hx => hnext x (List.mem_append_left l₂ hx)) ?_,
    h₂.set_prev hnodup₂ ?_ fun x hx => hprev x (List.mem_append_right l₁ hx)⟩
  · intro x hx
    rw [hprev x (List.mem_append_left l₂ hx), if_neg (hhead x hx)]
  · intro x hx
    rw [hnext x (List.mem_append_right l₁ hx), if_neg (hlast x hx)]

end Linked

end EquivChecker
