import EquivChecker.HeapLayout

/-!
# Operations on the free list

A block is appended in front of a list that is not empty, or removed from anywhere in
the list. No metadata changes, and memory changes only in headers of the list.
-/

namespace EquivChecker.Malloc

open Heap Malloc.Field

variable {P A : Set ℕ} {s t : Heap} {h k v : ℕ} {fl l₁ l₂ : List ℕ} {f : Field}

namespace Chain

theorem congr (hc : Chain P s fl) (hload : ∀ k ∈ fl, ∀ f, f ≠ metadata → t.load k f = s.load k f)
    (hfirst : t.first_free = s.first_free) : Chain P t fl where
  sites := hc.sites
  nodup := hc.nodup
  links := hc.links.congr (fun k hk => hload k hk next_free (by decide))
    fun k hk => hload k hk previous_free (by decide)
  first := hfirst.trans hc.first

theorem mono {P' : Set ℕ} (hc : Chain P s fl) (hsites : ∀ h ∈ fl, h ∈ P') : Chain P' s fl :=
  ⟨hsites, hc.nodup, hc.links, hc.first⟩

theorem store_metadata (hP : Sites P) (hc : Chain P s fl) (hh : h ∈ P) (hv : v < 2 ^ 32) :
    Chain P (s.store h metadata v) fl := by
  refine hc.congr (fun k hk f hf => ?_) rfl
  rw [load_store hP hh (hc.sites k hk) metadata f hv, if_neg fun heq => hf heq.2]

theorem ne_zero (hP : Sites P) (hc : Chain P s fl) (hh : h ∈ fl) : h ≠ 0 :=
  (hP.pos h (hc.sites h hh)).ne'

theorem first_eq_zero (hP : Sites P) (hc : Chain P s fl) : s.first_free = 0 ↔ fl = [] := by
  rw [hc.first]
  cases fl with
  | nil => simp
  | cons h fl => simpa using hc.ne_zero hP List.mem_cons_self

/-- The links of a block in the list. -/
theorem neighbours (hc : Chain P s (l₁ ++ h :: l₂)) :
    s.load h previous_free = l₁.getLastD 0 ∧ s.load h next_free = l₂.headD 0 :=
  hc.links.neighbours

end Chain

section Append

theorem append_free_block_eq (hP : Sites P) (hc : Chain P s (k :: fl)) : append_free_block h s =
    { ((s.store h next_free k).store h previous_free 0).store k previous_free h with
      first_free := h } := by
  have hk : s.first_free = k := hc.first
  have hne : k ≠ 0 := hc.ne_zero hP List.mem_cons_self
  rw [append_free_block, hk]
  simp only [if_pos hne]

theorem load_append (hP : Sites P) (hc : Chain P s fl) (hne : fl ≠ []) (hh : h ∈ P) (hk : k ∈ P)
    (hhk : k ≠ h) : (append_free_block h s).load k f =
      if k = fl.headD 0 ∧ f = previous_free then h else s.load k f := by
  obtain ⟨old, fl, rfl⟩ := List.exists_cons_of_ne_nil hne
  have hold : old ∈ P := hc.sites old List.mem_cons_self
  rw [append_free_block_eq hP hc]
  change (((s.store h next_free old).store h previous_free 0).store old previous_free h).load k f = _
  rw [load_store hP hold hk _ _ (hP.lt h hh), load_store hP hh hk _ _ (by decide),
    load_store hP hh hk _ _ (hP.lt old hold)]
  simp [hhk]

theorem load_append_self (hP : Sites P) (hc : Chain P s fl) (hne : fl ≠ []) (hh : h ∈ P)
    (hnot : h ∉ fl) : (append_free_block h s).load h previous_free = 0 ∧
      (append_free_block h s).load h next_free = fl.headD 0 ∧
      (append_free_block h s).load h metadata = s.load h metadata := by
  obtain ⟨old, fl, rfl⟩ := List.exists_cons_of_ne_nil hne
  have hold : old ∈ P := hc.sites old List.mem_cons_self
  have hne' : h ≠ old := fun heq => hnot (heq ▸ List.mem_cons_self)
  rw [append_free_block_eq hP hc]
  have hload : ∀ f, Heap.load { ((s.store h next_free old).store h previous_free 0).store old
      previous_free h with first_free := h } h f =
        if f = previous_free then 0 else if f = next_free then old else s.load h f := by
    intro f
    change (((s.store h next_free old).store h previous_free 0).store old previous_free h).load h f = _
    rw [load_store hP hold hh _ _ (hP.lt h hh), load_store hP hh hh _ _ (by decide),
      load_store hP hh hh _ _ (hP.lt old hold)]
    simp [hne']
  exact ⟨hload _, hload _, hload _⟩

theorem append_metadata (hP : Sites P) (hc : Chain P s fl) (hne : fl ≠ []) (hh : h ∈ P)
    (hnot : h ∉ fl) (hk : k ∈ P) : (append_free_block h s).load k metadata = s.load k metadata := by
  by_cases hkh : k = h
  · rw [hkh]
    exact (load_append_self hP hc hne hh hnot).2.2
  · rw [load_append hP hc hne hh hk hkh]
    simp

theorem Chain.append (hP : Sites P) (hc : Chain P s fl) (hne : fl ≠ []) (hh : h ∈ P) (hnot : h ∉ fl) :
    Chain P (append_free_block h s) (h :: fl) := by
  have hnew : ∀ k ∈ fl, k ≠ h := fun k hk heq => hnot (heq ▸ hk)
  obtain ⟨hprev, hnext, -⟩ := load_append_self hP hc hne hh hnot
  constructor
  · intro k hk
    rcases List.mem_cons.mp hk with rfl | hk
    · exact hh
    · exact hc.sites k hk
  · exact List.nodup_cons.mpr ⟨hnot, hc.nodup⟩
  · refine hc.links.push hc.nodup hprev hnext (fun k hk => ?_) fun k hk => ?_
    · rw [load_append hP hc hne hh (hc.sites k hk) (hnew k hk)]
      simp
    · rw [load_append hP hc hne hh (hc.sites k hk) (hnew k hk)]
      simp
  · rfl

theorem append_only (hP : Sites P) (hc : Chain P s fl) (hne : fl ≠ []) (hh : h ∈ A)
    (hA : ∀ k ∈ fl, k ∈ A) : Only A s (append_free_block h s) := by
  obtain ⟨old, fl, rfl⟩ := List.exists_cons_of_ne_nil hne
  rw [append_free_block_eq hP hc]
  exact ((only_store _ hh _ _).trans (only_store _ hh _ _)).trans
    (only_store _ (hA old List.mem_cons_self) _ _)

theorem append_fields (h : ℕ) (s : Heap) : (append_free_block h s).base = s.base ∧
    (append_free_block h s).size = s.size ∧ (append_free_block h s).emptied = s.emptied := by
  unfold append_free_block
  dsimp only
  split <;> exact ⟨rfl, rfl, rfl⟩

end Append

section Remove

theorem load_remove (hP : Sites P) (hprev : s.load h previous_free ≠ 0 → s.load h previous_free ∈ P)
    (hnext : s.load h next_free ≠ 0 → s.load h next_free ∈ P) (hk : k ∈ P) :
    (remove_free_block h s).load k f =
      if k = s.load h next_free ∧ f = previous_free then s.load h previous_free
      else if k = s.load h previous_free ∧ f = next_free then s.load h next_free
      else s.load k f := by
  have hpos : k ≠ 0 := (hP.pos k hk).ne'
  have hlt := fun f => load_lt s h f
  unfold remove_free_block
  generalize hp : s.load h previous_free = p at hprev
  generalize hn : s.load h next_free = n at hnext
  by_cases hp0 : p = 0
  · by_cases hn0 : n = 0
    · simp [hp0, hn0, hpos, Heap.load]
    · have hload := load_store (s := s) hP (hnext hn0) hk previous_free f (hp ▸ hlt previous_free)
      simp only [hp0, hn0, hpos, ne_eq, not_false_eq_true, if_true, false_and, if_false] at hload ⊢
      exact hload
  · have hfirst := load_store (s := s) hP (hprev hp0) hk next_free f (hn ▸ hlt next_free)
    by_cases hn0 : n = 0
    · simp only [hp0, hn0, hpos, ne_eq, not_true_eq_false, false_and, if_false] at hfirst ⊢
      exact hfirst
    · have hload := load_store (s := s.store p next_free n) hP (hnext hn0) hk previous_free f
        (hp ▸ hlt previous_free)
      rw [hfirst] at hload
      simp only [hp0, hn0, ne_eq, not_false_eq_true, if_true, if_false] at hload ⊢
      exact hload

theorem getLastD_mem {l : List ℕ} (hne : l.getLastD 0 ≠ 0) : l.getLastD 0 ∈ l := by
  rcases List.eq_nil_or_concat' l with rfl | ⟨l, c, rfl⟩
  · exact absurd rfl hne
  · simp

theorem headD_mem {l : List ℕ} (hne : l.headD 0 ≠ 0) : l.headD 0 ∈ l := by
  cases l with
  | nil => exact absurd rfl hne
  | cons c l => exact List.mem_cons_self

theorem remove_only (hc : Chain P s (l₁ ++ h :: l₂)) (hA : ∀ k ∈ l₁ ++ l₂, k ∈ A) :
    Only A s (remove_free_block h s) := by
  obtain ⟨hprev, hnext⟩ := hc.neighbours
  unfold remove_free_block
  dsimp only
  rw [hprev, hnext]
  have hfirst : Only A s (if l₁.getLastD 0 = 0 then { s with first_free := l₂.headD 0 }
      else s.store (l₁.getLastD 0) next_free (l₂.headD 0)) := by
    split
    · exact Only.refl A s
    · rename_i hne
      exact only_store _ (hA _ (List.mem_append_left _ (getLastD_mem hne))) _ _
  generalize (if l₁.getLastD 0 = 0 then { s with first_free := l₂.headD 0 }
    else s.store (l₁.getLastD 0) next_free (l₂.headD 0)) = u at hfirst ⊢
  refine hfirst.trans ?_
  by_cases hne : l₂.headD 0 ≠ 0
  · simp only [if_pos hne]
    exact only_store u (hA _ (List.mem_append_right _ (headD_mem hne))) _ _
  · simp only [if_neg hne]
    exact Only.refl A u

variable (hP : Sites P) (hc : Chain P s (l₁ ++ h :: l₂))
include hP hc

theorem load_remove_chain (hk : k ∈ P) : (remove_free_block h s).load k f =
    if k = l₂.headD 0 ∧ f = previous_free then l₁.getLastD 0
    else if k = l₁.getLastD 0 ∧ f = next_free then l₂.headD 0 else s.load k f := by
  obtain ⟨hprev, hnext⟩ := hc.neighbours
  rw [load_remove hP _ _ hk, hprev, hnext]
  · intro hne
    rw [hprev] at hne ⊢
    exact hc.sites _ (List.mem_append_left _ (getLastD_mem hne))
  · intro hne
    rw [hnext] at hne ⊢
    exact hc.sites _ (List.mem_append_right _ (List.mem_cons_of_mem _ (headD_mem hne)))

theorem remove_metadata (hk : k ∈ P) :
    (remove_free_block h s).load k metadata = s.load k metadata := by
  rw [load_remove_chain hP hc hk]
  simp

theorem remove_first : (remove_free_block h s).first_free = (l₁ ++ l₂).headD 0 := by
  obtain ⟨hprev, hnext⟩ := hc.neighbours
  have hfirst := hc.first
  unfold remove_free_block
  dsimp only
  rw [hprev, hnext]
  rcases List.eq_nil_or_concat' l₁ with rfl | ⟨l, c, rfl⟩
  · simp only [List.getLastD_nil, if_true, List.nil_append]
    split <;> rfl
  · have hne : (l ++ [c]).getLastD 0 ≠ 0 := by
      rw [show (l ++ [c]).getLastD 0 = c by simp]
      exact hc.ne_zero hP (by simp)
    rw [if_neg hne]
    have hhead : (l ++ [c] ++ l₂).headD 0 = (l ++ [c] ++ h :: l₂).headD 0 := by cases l <;> rfl
    rw [hhead, ← hfirst]
    split <;> rfl

theorem Chain.remove : Chain P (remove_free_block h s) (l₁ ++ l₂) := by
  have hsub : (l₁ ++ l₂).Sublist (l₁ ++ h :: l₂) := by simp
  have hzero : ∀ k ∈ l₁ ++ l₂, k ≠ 0 := fun k hk => hc.ne_zero hP (hsub.subset hk)
  refine ⟨fun k hk => hc.sites k (hsub.subset hk), hc.nodup.sublist hsub, ?_, remove_first hP hc⟩
  refine hc.links.remove (hc.nodup.sublist hsub) (fun hmem => ?_) (fun hmem => ?_) ?_ ?_
  · exact hzero 0 (List.mem_append_right _ hmem) rfl
  · exact hzero 0 (List.mem_append_left _ hmem) rfl
  · intro k hk
    rw [load_remove_chain hP hc (hc.sites k (hsub.subset hk))]
    simp
  · intro k hk
    rw [load_remove_chain hP hc (hc.sites k (hsub.subset hk))]
    simp

end Remove

theorem remove_fields (h : ℕ) (s : Heap) : (remove_free_block h s).base = s.base ∧
    (remove_free_block h s).size = s.size ∧
    (remove_free_block h s).emptied = (s.emptied || (remove_free_block h s).first_free == 0) := by
  unfold remove_free_block
  dsimp only
  refine ⟨?_, ?_, ?_⟩ <;> (split <;> split <;> rfl)

end EquivChecker.Malloc
