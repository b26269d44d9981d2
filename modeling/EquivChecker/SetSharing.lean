import EquivChecker.SetSessions

/-!
# Sets share no nodes

A node is reached from one live set at most, and along one path. Freeing a set frees the
nodes that are reached from it, each once, and the other sets stay as they are.
-/

namespace EquivChecker.SetTrie

open OwnedHeap

/-- The node that a path of child pointers leads to. -/
def follow (h : Ptr → Option SetT) : Ptr → List (Fin 32) → Option Ptr
  | p, [] => some p
  | p, i :: path => match h p with
    | none => none
    | some n => if n.children i = NULL then none else follow h (n.children i) path

/-- The nodes of a trie in the order in which `set_free` frees them. -/
def freed (h : Ptr → Option SetT) : ℕ → Ptr → List Ptr
  | 0, _ => []
  | fuel + 1, p => match h p with
    | none => []
    | some n => ((List.finRange 32).filter (n.children · ≠ NULL)).flatMap
        (fun i => freed h fuel (n.children i)) ++ [p]

variable {h h' : Ptr → Option SetT} {s t : SetHeap} {k fuel : ℕ} {p q : Ptr} {F : Set Ptr} {n : SetT}
  {G : Fin 32 → Set Ptr} {i : Fin 32} {path path' : List (Fin 32)}

theorem Branch.ne_null_of_mem (hb : Branch h k p n G) (hq : q ∈ G i) : n.children i ≠ NULL := by
  rcases hb.kids i with ⟨-, hempty⟩ | hchild
  · rw [hempty] at hq
    exact hq.elim
  · exact hchild.ne_null

section Paths

theorem follow_cons (hn : h p = some n) : follow h p (i :: path) = some q ↔
    n.children i ≠ NULL ∧ follow h (n.children i) path = some q := by
  rw [follow, hn]
  by_cases hi : n.children i = NULL <;> simp [hi]

theorem Owns.follow_step (ho : Owns h k p F) (hq : follow h p (i :: path) = some q) :
    ∃ k' n G, Branch h k' p n G ∧ F = foot p G ∧ n.children i ≠ NULL ∧
      follow h (n.children i) path = some q := by
  cases k with
  | zero =>
    obtain ⟨-, ⟨n, hn, -, hnull⟩, -⟩ := ho
    exact absurd (hnull i) ((follow_cons hn).mp hq).1
  | succ k =>
    obtain ⟨n, G, hb, -, -, rfl⟩ := ho.branch
    exact ⟨k, n, G, hb, rfl, (follow_cons hb.node).mp hq⟩

theorem Owns.follow_mem (ho : Owns h k p F) (hq : follow h p path = some q) : q ∈ F := by
  induction path generalizing k p F with
  | nil =>
    cases hq
    exact ho.root_mem
  | cons i path ih =>
    obtain ⟨k', n, G, hb, rfl, hi, hq⟩ := ho.follow_step hq
    exact mem_foot (ih (hb.child hi) hq)

theorem Owns.exists_follow (ho : Owns h k p F) (hq : q ∈ F) : ∃ path, follow h p path = some q := by
  induction k generalizing p F with
  | zero =>
    obtain ⟨-, -, rfl⟩ := ho
    exact ⟨[], by rw [Set.mem_singleton_iff.mp hq]; rfl⟩
  | succ k ih =>
    obtain ⟨n, G, hb, -, -, rfl⟩ := ho.branch
    rcases hq with rfl | hq
    · exact ⟨[], rfl⟩
    · obtain ⟨i, hi⟩ := Set.mem_iUnion.mp hq
      have hne := hb.ne_null_of_mem hi
      obtain ⟨path, hpath⟩ := ih (hb.child hne) hi
      exact ⟨i :: path, (follow_cons hb.node).mpr ⟨hne, hpath⟩⟩

theorem Owns.follow_ne (ho : Owns h k p F) (hq : follow h p (i :: path) = some q) : q ≠ p := by
  obtain ⟨k', n, G, hb, -, hi, hrest⟩ := ho.follow_step hq
  rintro rfl
  exact hb.root i ((hb.child hi).follow_mem hrest)

/-- Two paths to a node are the same. -/
theorem Owns.follow_unique (ho : Owns h k p F) (hq : follow h p path = some q)
    (hq' : follow h p path' = some q) : path = path' := by
  induction path generalizing k p F path' with
  | nil =>
    cases hq
    cases path' with
    | nil => rfl
    | cons j path' => exact absurd rfl (ho.follow_ne hq')
  | cons i path ih =>
    cases path' with
    | nil =>
      cases hq'
      exact absurd rfl (ho.follow_ne hq)
    | cons j path' =>
      obtain ⟨k', n, G, hb, -, hi, hrest⟩ := ho.follow_step hq
      obtain ⟨hj, hrest'⟩ := (follow_cons hb.node).mp hq'
      have hij : i = j := by
        by_contra hne
        exact Set.disjoint_left.mp (hb.disjoint hne) ((hb.child hi).follow_mem hrest)
          ((hb.child hj).follow_mem hrest')
      subst hij
      rw [ih (hb.child hi) hrest hrest']

end Paths

section Free

theorem freed_cons (hn : h p = some n) : freed h (fuel + 1) p =
    ((List.finRange 32).filter (n.children · ≠ NULL)).flatMap (fun i => freed h fuel (n.children i)) ++
      [p] := by
  rw [freed, hn]

theorem freed_leaf (hn : h p = some n) (hnull : ∀ i, n.children i = NULL) : freed h (fuel + 1) p = [p] := by
  rw [freed_cons hn]
  simp [hnull]

theorem Owns.mem_freed (ho : Owns h k p F) (hfuel : k < fuel) : q ∈ freed h fuel p ↔ q ∈ F := by
  induction k generalizing p F fuel with
  | zero =>
    obtain ⟨fuel, rfl⟩ : ∃ m, fuel = m + 1 := ⟨fuel - 1, by omega⟩
    obtain ⟨-, ⟨n, hn, -, hnull⟩, rfl⟩ := ho
    rw [freed_leaf hn hnull, List.mem_singleton, Set.mem_singleton_iff]
  | succ k ih =>
    obtain ⟨fuel, rfl⟩ : ∃ m, fuel = m + 1 := ⟨fuel - 1, by omega⟩
    obtain ⟨n, G, hb, -, -, rfl⟩ := ho.branch
    rw [freed_cons hb.node, List.mem_append, List.mem_flatMap, List.mem_singleton, or_comm]
    refine or_congr_right ⟨?_, fun hq => ?_⟩
    · rintro ⟨i, hi, hq⟩
      have hne : n.children i ≠ NULL := by simpa using (List.mem_filter.mp hi).2
      exact Set.mem_iUnion.mpr ⟨i, (ih (hb.child hne) (by omega)).mp hq⟩
    · obtain ⟨i, hi⟩ := Set.mem_iUnion.mp hq
      have hne := hb.ne_null_of_mem hi
      exact ⟨i, by simp [hne], (ih (hb.child hne) (by omega)).mpr hi⟩

theorem Owns.freed_nodup (ho : Owns h k p F) (hfuel : k < fuel) : (freed h fuel p).Nodup := by
  induction k generalizing p F fuel with
  | zero =>
    obtain ⟨fuel, rfl⟩ : ∃ m, fuel = m + 1 := ⟨fuel - 1, by omega⟩
    obtain ⟨-, ⟨n, hn, -, hnull⟩, rfl⟩ := ho
    rw [freed_leaf hn hnull]
    exact List.nodup_singleton p
  | succ k ih =>
    obtain ⟨fuel, rfl⟩ : ∃ m, fuel = m + 1 := ⟨fuel - 1, by omega⟩
    obtain ⟨n, G, hb, -, -, rfl⟩ := ho.branch
    have hne : ∀ i ∈ (List.finRange 32).filter (n.children · ≠ NULL), n.children i ≠ NULL := by
      intro i hi
      simpa using (List.mem_filter.mp hi).2
    have hmem : ∀ i ∈ (List.finRange 32).filter (n.children · ≠ NULL),
        ∀ q, q ∈ freed h fuel (n.children i) ↔ q ∈ G i := fun i hi q =>
      (hb.child (hne i hi)).mem_freed (by omega)
    rw [freed_cons hb.node, List.nodup_append]
    refine ⟨List.nodup_flatMap.mpr ⟨fun i hi => ih (hb.child (hne i hi)) (by omega), ?_⟩,
      List.nodup_singleton p, ?_⟩
    · refine ((List.nodup_finRange 32).filter _).imp_of_mem fun {i j} hi hj hij => ?_
      intro q hqi hqj
      exact Set.disjoint_left.mp (hb.disjoint hij) ((hmem i hi q).mp hqi) ((hmem j hj q).mp hqj)
    · rintro q hq _ hp rfl
      obtain ⟨i, hi, hqi⟩ := List.mem_flatMap.mp hq
      rw [List.mem_singleton.mp hp] at hqi
      exact hb.root i ((hmem i hi p).mp hqi)

theorem Owns.freed_congr (ho : Owns h k p F) (hfuel : k < fuel) (heq : ∀ q ∈ F, h' q = h q) :
    freed h' fuel p = freed h fuel p := by
  induction k generalizing p F fuel with
  | zero =>
    obtain ⟨fuel, rfl⟩ : ∃ m, fuel = m + 1 := ⟨fuel - 1, by omega⟩
    have hp := heq p ho.root_mem
    obtain ⟨-, ⟨n, hn, -, hnull⟩, rfl⟩ := ho
    rw [freed_leaf hn hnull, freed_leaf (hp.trans hn) hnull]
  | succ k ih =>
    obtain ⟨fuel, rfl⟩ : ∃ m, fuel = m + 1 := ⟨fuel - 1, by omega⟩
    have hp := heq p ho.root_mem
    obtain ⟨n, G, hb, -, -, rfl⟩ := ho.branch
    rw [freed_cons hb.node, freed_cons (hp.trans hb.node)]
    congr 1
    refine List.flatMap_congr fun i hi => ?_
    have hne : n.children i ≠ NULL := by simpa using (List.mem_filter.mp hi).2
    exact ih (hb.child hne) (by omega) fun q hq => heq q (mem_foot hq)

/-- Nodes in use are freed one after the other. -/
theorem free_all {l : List Ptr} (hnodup : l.Nodup) (hlive : ∀ q ∈ l, Live s.nodes q) :
    ForM.forM l equiv_free s =
      .ok ((), { s with nodes := fun q => if q ∈ l then none else s.nodes q }) := by
  induction l generalizing s with
  | nil =>
    simp only [List.not_mem_nil, if_false]
    rfl
  | cons p l ih =>
    obtain ⟨hp, hnodup⟩ := List.nodup_cons.mp hnodup
    obtain ⟨n, hn⟩ := Option.ne_none_iff_exists'.mp (hlive p List.mem_cons_self)
    have hfree : equiv_free p s = .ok ((), { s with nodes := Function.update s.nodes p none }) := by
      rw [equiv_free, hn]
    rw [List.forM_cons, run_bind hfree, ih hnodup]
    · congr 3
      funext q
      by_cases hq : q = p
      · simp [hq]
      · simp [hq]
    · intro q hq
      have hne : q ≠ p := fun heq => hp (heq ▸ hq)
      have hsame : Function.update s.nodes p none q = s.nodes q := Function.update_of_ne hne _ _
      exact fun h => hlive q (List.mem_cons_of_mem p hq) (hsame.symm.trans h)

theorem bind_run_congr {α β : Type} {m m' : SetM α} {f : α → SetM β} (h : m s = m' s) :
    (m >>= f) s = (m' >>= f) s := by
  change (m s >>= fun r => f r.1 r.2) = (m' s >>= fun r => f r.1 r.2)
  rw [h]

/-- What `set_free` does with a child. -/
def free_child (fuel : ℕ) (p : Ptr) (i : Fin 32) : SetM PUnit := do
  let n ← load p
  if n.children i ≠ NULL then set_free fuel (n.children i)

theorem free_child_null (hn : s.nodes p = some n) (hi : n.children i = NULL) :
    free_child fuel p i s = .ok ((), s) := by
  have hload : load p s = .ok (n, s) := by rw [load, hn]
  rw [free_child, run_bind hload, if_neg (not_not.mpr hi)]
  rfl

theorem free_loop_null (hn : s.nodes p = some n) (hnull : ∀ i, n.children i = NULL)
    (todo : List (Fin 32)) : ForM.forM todo (free_child fuel p) s = .ok ((), s) := by
  induction todo with
  | nil => rfl
  | cons i todo ih =>
    rw [List.forM_cons, run_bind (free_child_null hn (hnull i))]
    exact ih

/-- The loop of `set_free` over the children. -/
theorem free_loop {todo : List (Fin 32)} (hn : s.nodes p = some n) (hnodup : todo.Nodup)
    (hkids : ∀ i ∈ todo, n.children i ≠ NULL → Owns s.nodes k (n.children i) (G i))
    (hdisj : Pairwise fun i j => Disjoint (G i) (G j)) (hroot : ∀ i, p ∉ G i) (hfuel : k < fuel)
    (hfree : ∀ {s : SetHeap} {p F}, Owns s.nodes k p F →
      set_free fuel p s = ForM.forM (freed s.nodes fuel p) equiv_free s) :
    ForM.forM todo (free_child fuel p) s =
    ForM.forM ((todo.filter (n.children · ≠ NULL)).flatMap fun i => freed s.nodes fuel (n.children i))
      equiv_free s := by
  induction todo generalizing s with
  | nil => rfl
  | cons i todo ih =>
    obtain ⟨hi, hnodup⟩ := List.nodup_cons.mp hnodup
    by_cases hnull : n.children i = NULL
    · rw [List.forM_cons, run_bind (free_child_null hn hnull),
        List.filter_cons_of_neg (by simpa using hnull)]
      exact ih hn hnodup fun j hj => hkids j (List.mem_cons_of_mem i hj)
    · have hown := hkids i List.mem_cons_self hnull
      have hmem : ∀ q, q ∈ freed s.nodes fuel (n.children i) ↔ q ∈ G i := fun q => hown.mem_freed hfuel
      have hall := free_all (hown.freed_nodup hfuel) fun q hq => hown.live q ((hmem q).mp hq)
      have hload : load p s = .ok (n, s) := by rw [load, hn]
      have hbody : free_child fuel p i s = ForM.forM (freed s.nodes fuel (n.children i)) equiv_free s := by
        rw [free_child, run_bind hload, if_pos hnull, hfree hown]
      rw [List.forM_cons, run_bind (hbody.trans hall), List.filter_cons_of_pos (by simpa using hnull),
        List.flatMap_cons, List.forM_append, run_bind hall]
      -- the nodes that are left are as before
      have hkeep : ∀ q, q ∉ G i → (if q ∈ freed s.nodes fuel (n.children i) then none else s.nodes q) =
          s.nodes q := fun q hq => if_neg fun h => hq ((hmem q).mp h)
      have hother : ∀ j ∈ todo, ∀ q ∈ G j,
          (if q ∈ freed s.nodes fuel (n.children i) then none else s.nodes q) = s.nodes q := by
        intro j hj q hq
        have hij : i ≠ j := fun heq => hi (heq ▸ hj)
        exact hkeep q fun hqi => Set.disjoint_left.mp (hdisj hij) hqi hq
      have hkids' := fun j hj hj0 => hkids j (List.mem_cons_of_mem i hj) hj0
      rw [ih ((hkeep p (hroot i)).trans hn) hnodup fun j hj hj0 => (hkids' j hj hj0).congr (hother j hj)]
      refine congrArg (fun l => ForM.forM l equiv_free _) (List.flatMap_congr fun j hj => ?_)
      obtain ⟨hj, hj0⟩ := List.mem_filter.mp hj
      exact (hkids' j hj (by simpa using hj0)).freed_congr hfuel (hother j hj)

/-- `set_free` frees the nodes of a trie in the order of `freed`. -/
theorem set_free_eq (ho : Owns s.nodes k p F) (hfuel : k < fuel) :
    set_free fuel p s = ForM.forM (freed s.nodes fuel p) equiv_free s := by
  induction k generalizing s p F fuel with
  | zero =>
    obtain ⟨fuel, rfl⟩ : ∃ m, fuel = m + 1 := ⟨fuel - 1, by omega⟩
    obtain ⟨-, ⟨n, hn, -, hnull⟩, rfl⟩ := ho
    rw [freed_leaf hn hnull, set_free]
    refine (run_bind (free_loop_null hn hnull _)).trans ?_
    simp
  | succ k ih =>
    obtain ⟨fuel, rfl⟩ : ∃ m, fuel = m + 1 := ⟨fuel - 1, by omega⟩
    obtain ⟨n, G, hb, -, -, rfl⟩ := ho.branch
    have hloop := free_loop hb.node (List.nodup_finRange 32) (fun i _ => hb.child) hb.disjoint hb.root
      (show k < fuel by omega) fun hown => ih hown (by omega)
    rw [freed_cons hb.node, List.forM_append]
    refine (bind_run_congr hloop).trans ?_
    simp

end Free

theorem Owns.follow_congr (ho : Owns h k p F) (heq : ∀ q ∈ F, h' q = h q) (path : List (Fin 32)) :
    follow h' p path = follow h p path := by
  induction path generalizing k p F with
  | nil => rfl
  | cons i path ih =>
    have hp := heq p ho.root_mem
    obtain ⟨n, hn, -⟩ := ho.node
    rw [follow, follow, hp, hn]
    by_cases hi : n.children i = NULL
    · simp only [if_pos hi]
    · simp only [if_neg hi]
      cases k with
      | zero =>
        obtain ⟨-, ⟨n', hn', -, hnull⟩, -⟩ := ho
        cases hn.symm.trans hn'
        exact absurd (hnull i) hi
      | succ k =>
        obtain ⟨n', G, hb, -, -, rfl⟩ := ho.branch
        cases hn.symm.trans hb.node
        exact ih (hb.child hi) fun q hq => heq q (mem_foot hq)

namespace SetState

/-- The nodes that are reached from a set. -/
def Reached (S : SetState) (z : ℕ) (q : Ptr) : Prop := ∃ path, follow S.heap.nodes (S.ptr z) path = some q

/-- No two live sets share a node, and no node is reached along two paths. -/
def Unshared (S : SetState) : Prop :=
  ∀ x ∈ S.live, ∀ y ∈ S.live, ∀ path path' q, follow S.heap.nodes (S.ptr x) path = some q →
    follow S.heap.nodes (S.ptr y) path' = some q → x = y ∧ path = path'

/-- `set_free` calls `equiv_free` once for each node of the set `z`, with the nodes as given,
and every other live set stays as it is. -/
structure FreesOnce (S : SetState) (z : ℕ) (l : List Ptr) (t : SetHeap) : Prop where
  nodup : l.Nodup
  reached : ∀ q, q ∈ l ↔ S.Reached z q
  calls : set_free levels (S.ptr z) S.heap = ForM.forM l equiv_free S.heap
  returns : set_free levels (S.ptr z) S.heap = .ok ((), t)
  freed : ∀ q ∈ l, t.nodes q = none
  kept : ∀ q ∉ l, t.nodes q = S.heap.nodes q
  others : ∀ x ∈ S.live, x ≠ z →
    (∀ path, follow t.nodes (S.ptr x) path = follow S.heap.nodes (S.ptr x) path) ∧
    ∀ v, ∃ r, set_lookup levels (S.ptr x) v S.heap = .ok (r, S.heap) ∧
      set_lookup levels (S.ptr x) v t = .ok (r, t)

variable {ok : SetState → SetCall → Prop} {S : SetState} {z : ℕ}

theorem Sound.unshared (hS : S.Sound) : S.Unshared := by
  obtain ⟨A, F, hr⟩ := hS
  intro x hx y hy path path' q hq hq'
  have hqx := (hr.owns x hx).follow_mem hq
  have hqy := (hr.owns y hy).follow_mem hq'
  have hxy : x = y := by
    by_contra hne
    exact Set.disjoint_left.mp (hr.disjoint x hx y hy hne) hqx hqy
  subst hxy
  exact ⟨rfl, (hr.owns x hx).follow_unique hq hq'⟩

theorem Sound.freesOnce (hS : S.Sound) (hz : z ∈ S.live) : ∃ l t, S.FreesOnce z l t := by
  obtain ⟨A, F, hr⟩ := hS
  have ho := hr.owns z hz
  have hfuel : 6 < levels := by decide
  have hmem : ∀ q, q ∈ freed S.heap.nodes levels (S.ptr z) ↔ q ∈ F z := fun q => ho.mem_freed hfuel
  have hcalls := set_free_eq ho hfuel
  have hall := free_all (ho.freed_nodup hfuel) fun q hq => ho.live q ((hmem q).mp hq)
  obtain ⟨t, ht⟩ : ∃ t : SetHeap, t = { S.heap with
      nodes := fun q => if q ∈ freed S.heap.nodes levels (S.ptr z) then none else S.heap.nodes q } :=
    ⟨_, rfl⟩
  rw [← ht] at hall
  have hgone : ∀ q ∈ freed S.heap.nodes levels (S.ptr z), t.nodes q = none := fun q hq => by
    rw [ht]
    exact if_pos hq
  have hkept : ∀ q ∉ freed S.heap.nodes levels (S.ptr z), t.nodes q = S.heap.nodes q := fun q hq => by
    rw [ht]
    exact if_neg hq
  refine ⟨_, t, ho.freed_nodup hfuel, fun q => ?_, hcalls, hcalls.trans hall, hgone, hkept,
    fun x hx hne => ?_⟩
  · rw [hmem]
    constructor
    · exact ho.exists_follow
    · rintro ⟨path, hpath⟩
      exact ho.follow_mem hpath
  · have hown := hr.owns x hx
    have hsame : ∀ q ∈ F x, t.nodes q = S.heap.nodes q := fun q hq =>
      hkept q fun h => Set.disjoint_left.mp (hr.disjoint z hz x hx hne.symm) ((hmem q).mp h) hq
    refine ⟨hown.follow_congr hsame, fun v => ?_⟩
    obtain ⟨r, hrun, hin, hout⟩ := set_lookup_spec hown hfuel v
    obtain ⟨r', hrun', hin', hout'⟩ := set_lookup_spec (hown.congr hsame) hfuel v
    have hhas := hown.has_congr hsame v
    refine ⟨r, hrun, ?_⟩
    rw [hrun']
    by_cases hv : Has S.heap.nodes 6 (S.ptr x) v
    · rw [hin hv, hin' (hhas.mpr hv)]
    · rw [hout hv, hout' (mt hhas.mp hv)]

/-- After any calls, the live sets share no nodes, and freeing one of them frees each of its
nodes once and leaves the others alone. -/
theorem sets_unshared {s : SetHeap} {ptr : ℕ → Ptr}
    (hS : Reaches (fun _ _ => True) ⟨s, ptr, []⟩ S) :
    S.Unshared ∧ ∀ z ∈ S.live, ∃ l t, S.FreesOnce z l t :=
  have hsound := reaches_sound hS
  ⟨hsound.unshared, fun _ hz => hsound.freesOnce hz⟩

/-- The result of an intersection is freed, and a set is merged into another one. -/
def merge : List SetCall :=
  [.op (.alloc 0), .op (.insert 0 62), .op (.alloc 1), .op (.add_mem 1 62 4), .op (.alloc 2),
    .op (.intersection 2 0 1), .free 2, .op (.union_inplace 0 1)]

theorem sets_unshared_merge : ∃ S,
    replay (fun _ _ => True) merge ⟨⟨fun _ => none, List.range' 1 50⟩, fun _ => NULL, []⟩ = some S ∧
      S.Unshared ∧ (∃ l t, S.FreesOnce 0 l t) ∧ ∃ l t, S.FreesOnce 1 l t := by
  have hlive : (replay (fun _ _ => True) merge ⟨⟨fun _ => none, List.range' 1 50⟩, fun _ => NULL, []⟩).map
      (·.live) = some [0, 1, 1, 0, 0] := by
    decide +kernel
  obtain ⟨S, hrun, hlive⟩ := Option.map_eq_some_iff.mp hlive
  obtain ⟨hunshared, hfree⟩ := sets_unshared (Reaches.start.replay hrun)
  exact ⟨S, hrun, hunshared, hfree 0 (by simp [hlive]), hfree 1 (by simp [hlive])⟩

end SetState

end EquivChecker.SetTrie
