import EquivChecker.ThreadOrders

/-!
# The enumeration of the thread orders

Called again and again from all ones, `next_tid` leaves every order in which no thread
follows itself, each once, and then returns 0. An entry is at most one larger than the
number of functions before it is reset, so the 32-bit entries of the code do not wrap.
-/

namespace EquivChecker

section DistinctNeighbours
variable {α : Type*} [DecidableEq α]

/-- The words over an alphabet whose neighbouring letters differ. -/
def distinctNeighbours (A : List α) : ℕ → List (List α)
  | 0 => [[]]
  | len + 1 => (distinctNeighbours A len).flatMap fun w =>
      (A.filter fun a => w.head? ≠ some a).map (· :: w)

theorem mem_distinctNeighbours {A : List α} {len : ℕ} {w : List α} :
    w ∈ distinctNeighbours A len ↔ w.length = len ∧ (∀ a ∈ w, a ∈ A) ∧ w.IsChain (· ≠ ·) := by
  induction len generalizing w with
  | zero => cases w <;> simp [distinctNeighbours]
  | succ len ih =>
    cases w with
    | nil => simp [distinctNeighbours]
    | cons a w =>
      have hhead : w.head? ≠ some a ↔ ∀ b ∈ w.head?, a ≠ b := by
        cases w.head? with
        | none => simp
        | some b => simp [ne_comm]
      simp only [distinctNeighbours, List.mem_flatMap, List.mem_map, List.mem_filter, ih,
        decide_eq_true_eq, List.cons.injEq, List.length_cons, Nat.add_right_cancel_iff,
        List.forall_mem_cons, List.isChain_cons]
      constructor
      · rintro ⟨w, ⟨hlen, hw, hchain⟩, a, ⟨ha, hne⟩, rfl, rfl⟩
        exact ⟨hlen, ⟨ha, hw⟩, hhead.mp hne, hchain⟩
      · rintro ⟨hlen, ⟨ha, hw⟩, hne, hchain⟩
        exact ⟨w, ⟨hlen, hw, hchain⟩, a, ⟨ha, hhead.mpr hne⟩, rfl, rfl⟩

theorem nodup_distinctNeighbours {A : List α} (hA : A.Nodup) (len : ℕ) :
    (distinctNeighbours A len).Nodup := by
  induction len with
  | zero => exact List.nodup_singleton []
  | succ len ih =>
    refine List.nodup_flatMap.mpr ⟨fun w _ => ?_, ih.imp_of_mem fun _ _ hne => ?_⟩
    · exact (hA.filter _).map fun _ _ h => (List.cons.inj h).1
    · intro w hw hw'
      obtain ⟨a, -, rfl⟩ := List.mem_map.mp hw
      obtain ⟨b, -, heq⟩ := List.mem_map.mp hw'
      exact hne (List.cons.inj heq).2.symm

/-- Every letter but the one before it may come next. -/
theorem length_distinctNeighbours {A : List α} (hA : A.Nodup) (len : ℕ) :
    (distinctNeighbours A (len + 1)).length = A.length * (A.length - 1) ^ len := by
  induction len with
  | zero => simp [distinctNeighbours]
  | succ len ih =>
    have hnext : ∀ w ∈ distinctNeighbours A (len + 1),
        ((A.filter fun a => w.head? ≠ some a).map (· :: w)).length = A.length - 1 := by
      intro w hw
      obtain ⟨hlen, hmem, -⟩ := mem_distinctNeighbours.mp hw
      cases w with
      | nil => cases hlen
      | cons b w =>
        have hfilter : (A.filter fun a => (b :: w).head? ≠ some a) = A.erase b := by
          rw [hA.erase_eq_filter]
          refine List.filter_congr fun a _ => ?_
          by_cases heq : a = b
          · simp [heq]
          · simp [heq, Ne.symm heq]
        rw [hfilter, List.length_map, List.length_erase_of_mem (hmem b List.mem_cons_self)]
    rw [distinctNeighbours, List.length_flatMap, List.map_congr_left hnext, List.map_const',
      List.sum_replicate_nat, ih, pow_succ, Nat.mul_assoc]

end DistinctNeighbours

namespace Interleaver

variable {num_funcs len ncs : ℕ} {tids : List ℕ}

/-- The orders that the calls of `next_tid` leave, up to the call that returns 0. -/
def next_tids (num_funcs : ℕ) : ℕ → List ℕ → Except Fault (List (List ℕ))
  | 0, _ => .error .spins
  | fuel + 1, tids => do
    match ← next_tid num_funcs tids with
    | none => .ok []
    | some tids => do
      let rest ← next_tids num_funcs fuel tids
      .ok (tids :: rest)

theorem tids_valid_iff : tids_valid tids ↔ tids.IsChain (· ≠ ·) := by
  induction tids with
  | nil => simp [tids_valid]
  | cons t ts ih =>
    cases ts with
    | nil => simp [tids_valid]
    | cons u ts => simp [tids_valid, ih]

/-- From an order on, the calls leave the valid orders of larger rank, by rank. -/
theorem next_tids_spec (hn : 1 < num_funcs) (fuel : ℕ) (h : Order num_funcs len tids)
    (hfuel : num_funcs ^ len ≤ rank num_funcs tids + fuel) :
    ∃ L, next_tids num_funcs fuel tids = .ok L ∧
      L.Pairwise (fun u v => rank num_funcs u < rank num_funcs v) ∧
      ∀ u, u ∈ L ↔ Order num_funcs len u ∧ tids_valid u ∧ rank num_funcs tids < rank num_funcs u := by
  induction fuel generalizing tids with
  | zero =>
    have hlt := h.rank_lt hn
    omega
  | succ fuel ih =>
    obtain ⟨r, hr, hnext⟩ := next_tid_spec hn h
    rw [next_tids, hr]
    cases r with
    | none =>
      refine ⟨[], rfl, List.Pairwise.nil, fun u => ?_⟩
      rw [iff_false_left List.not_mem_nil]
      rintro ⟨hu, hvalid, hlt⟩
      exact Nat.not_lt.mpr (hnext u hu hvalid) hlt
    | some next =>
      obtain ⟨hord, hvalid, hlt, hleast⟩ := hnext
      obtain ⟨L, hL, hsorted, hmem⟩ := ih hord (by omega)
      refine ⟨next :: L, ?_, List.pairwise_cons.mpr ⟨fun u hu => ((hmem u).mp hu).2.2, hsorted⟩,
        fun u => ?_⟩
      · change (next_tids num_funcs fuel next >>= fun rest => .ok (next :: rest)) = _
        rw [hL]
        rfl
      · rw [List.mem_cons, hmem]
        constructor
        · rintro (rfl | ⟨hu, huvalid, hult⟩)
          · exact ⟨hord, hvalid, hlt⟩
          · exact ⟨hu, huvalid, hlt.trans hult⟩
        · rintro ⟨hu, huvalid, hult⟩
          rcases Nat.eq_or_lt_of_le (hleast u hu huvalid hult) with heq | hless
          · exact .inl (hu.rank_inj hord hn heq.symm)
          · exact .inr ⟨hu, huvalid, hless⟩

/-- The calls of `next_tid` from all ones leave all orders without equal neighbours, once each. -/
theorem next_tids_exact (hfuncs : 2 ≤ num_funcs) (hncs : 1 ≤ ncs) : ∃ L,
    next_tids num_funcs (num_funcs ^ (ncs + 1)) (List.replicate (ncs + 1) 1) = .ok L ∧ L.Nodup ∧
      (∀ tids, tids ∈ L ↔ tids.length = ncs + 1 ∧ (∀ t ∈ tids, 1 ≤ t ∧ t ≤ num_funcs) ∧
        tids.IsChain (· ≠ ·)) ∧
      L.length = num_funcs * (num_funcs - 1) ^ ncs := by
  have hones : Order num_funcs (ncs + 1) (List.replicate (ncs + 1) 1) := order_ones (by omega) _
  obtain ⟨L, hL, hsorted, hmem⟩ := next_tids_spec hfuncs _ hones (Nat.le_add_left _ _)
  have hnodup : L.Nodup := hsorted.imp fun hlt heq => hlt.ne (congrArg _ heq)
  have hall : ∀ tids, tids ∈ L ↔ tids.length = ncs + 1 ∧ (∀ t ∈ tids, 1 ≤ t ∧ t ≤ num_funcs) ∧
      tids.IsChain (· ≠ ·) := by
    intro tids
    rw [hmem, rank_ones, tids_valid_iff]
    constructor
    · rintro ⟨hord, hvalid, -⟩
      exact ⟨hord.length, hord.range, hvalid⟩
    · rintro ⟨hlen, hrange, hvalid⟩
      have hord : Order num_funcs (ncs + 1) tids := ⟨hlen, hrange⟩
      refine ⟨hord, hvalid, Nat.pos_of_ne_zero fun hzero => ?_⟩
      -- only all ones has rank 0, and its neighbours are equal
      have heq := hord.rank_inj hones hfuncs (hzero.trans (rank_ones _).symm)
      obtain ⟨m, rfl⟩ := Nat.exists_eq_add_of_le' hncs
      rw [heq, List.replicate_succ, List.replicate_succ] at hvalid
      exact (List.isChain_cons_cons.mp hvalid).1 rfl
  refine ⟨L, hL, hnodup, hall, ?_⟩
  have hrange : (List.range' 1 num_funcs).Nodup := List.nodup_range'
  have hperm : L.Perm (distinctNeighbours (List.range' 1 num_funcs) (ncs + 1)) := by
    refine (List.perm_ext_iff_of_nodup hnodup (nodup_distinctNeighbours hrange _)).mpr fun tids => ?_
    rw [hall, mem_distinctNeighbours]
    simp only [List.mem_range'_1, Nat.lt_add_one_iff, Nat.add_comm 1]
  rw [hperm.length_eq, length_distinctNeighbours hrange, List.length_range']

theorem next_tids_exact_two :
    ∃ L, next_tids 2 (2 ^ 4) [1, 1, 1, 1] = .ok L ∧ L.length = 2 := by
  obtain ⟨L, hL, -, -, hlen⟩ := next_tids_exact (le_refl 2) (show 1 ≤ 3 by decide)
  exact ⟨L, hL, hlen⟩

end Interleaver

end EquivChecker
