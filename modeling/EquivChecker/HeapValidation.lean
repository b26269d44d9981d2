import EquivChecker.FreeListExactness

/-!
# The heap accounts for its blocks

The statistics are compared with the walk over the blocks, and `validate_heap` accepts
every heap in which they are right.
-/

namespace EquivChecker.Malloc

open Heap Malloc.Field

def used_blocks (s : Heap) : List Block := (layout s).filter (!·.free)

def free_blocks (s : Heap) : List Block := (layout s).filter (·.free)

/-- The walk covers the heap, and the statistics are its numbers of blocks and of bytes. -/
structure Accurate (s : Heap) : Prop where
  covers : Tiles s.base (layout s) (s.base + s.size)
  blocks_used : s.blocks_used = (used_blocks s).length
  blocks_free : s.blocks_free = (free_blocks s).length
  bytes_used : s.bytes_used.toNat = ((used_blocks s).map Block.size).sum
  bytes_free : s.bytes_free.toNat = ((free_blocks s).map Block.size).sum

variable {s : Heap} {fl : List ℕ} {bs l r : List Block} {b : Block} {lo hi fuel : ℕ}

/-- The sum over the blocks, part by part. -/
theorem sum_stats (bs : List Block) : (bs.map Block.stats).sum =
    (((bs.filter (!·.free)).length : ℤ), ((bs.filter (·.free)).length : ℤ),
      BitVec.ofNat 32 ((bs.filter (!·.free)).map Block.size).sum,
      BitVec.ofNat 32 ((bs.filter (·.free)).map Block.size).sum) := by
  induction bs with
  | nil => rfl
  | cons b bs ih =>
    rw [List.map_cons, List.sum_cons, ih]
    cases hfree : b.free with
    | true =>
      rw [Block.stats_free hfree]
      simp [hfree, BitVec.ofNat_add, add_comm]
    | false =>
      rw [Block.stats_used hfree]
      simp [hfree, BitVec.ofNat_add, add_comm]

/-- The bytes between the bounds are headers or belong to blocks. -/
theorem Tiles.sum_sizes (h : Tiles lo bs hi) :
    hi = lo + ((bs.filter (!·.free)).length + (bs.filter (·.free)).length) * metadata_size +
      (((bs.filter (!·.free)).map Block.size).sum + ((bs.filter (·.free)).map Block.size).sum) := by
  induction bs generalizing lo with
  | nil => exact h.symm
  | cons b bs ih =>
    obtain ⟨rfl, h⟩ := h
    rw [ih h]
    simp only [Block.stop, metadata_size]
    cases hfree : b.free with
    | true =>
      simp [hfree]
      omega
    | false =>
      simp [hfree]
      omega

theorem Good.accurate (hg : Good s bs fl) (hcount : Counted s bs) : Accurate s := by
  have hlayout := hg.layout
  have htotal := hg.laid.tiles.sum_sizes
  have hhigh := hg.laid.high
  obtain ⟨hblocks_used, hblocks_free, hbytes_used, hbytes_free⟩ : _ ∧ _ ∧ _ ∧ _ := by
    simpa only [Heap.stats, Prod.mk.injEq] using hcount.trans (sum_stats bs)
  constructor
  · rw [hlayout]
    exact hg.laid.tiles
  · rw [used_blocks, hlayout, hblocks_used]
  · rw [free_blocks, hlayout, hblocks_free]
  · rw [used_blocks, hlayout, hbytes_used, BitVec.toNat_ofNat]
    refine Nat.mod_eq_of_lt ?_
    omega
  · rw [free_blocks, hlayout, hbytes_free, BitVec.toNat_ofNat]
    refine Nat.mod_eq_of_lt ?_
    omega

section Validation

theorem validate_free_eq {p : ℕ} {n : ℤ}
    (hlinks : Linked (s.load · next_free) (s.load · previous_free) p fl 0) (hpos : ∀ h ∈ fl, h ≠ 0)
    (hfree : ∀ h ∈ fl, get_status s h = STATUS_FREE) (hne : fl ≠ []) (hfuel : fl.length ≤ fuel) :
    validate_free s fuel (fl.headD 0) n = .ok (some (n + fl.length)) := by
  induction fl generalizing p fuel n with
  | nil => exact absurd rfl hne
  | cons h fl ih =>
    obtain ⟨fuel, rfl⟩ := Nat.exists_eq_succ_of_ne_zero (Nat.ne_of_gt (Nat.zero_lt_of_lt hfuel))
    obtain ⟨-, hnext, hrest⟩ := hlinks
    have hstatus := hfree h List.mem_cons_self
    rw [List.headD_cons, validate_free, if_neg (hpos h List.mem_cons_self), if_neg (not_not.mpr hstatus)]
    simp only [next_free_block, hnext]
    cases fl with
    | nil => simp
    | cons k fl =>
      have hk : k ≠ 0 := hpos k (List.mem_cons_of_mem h List.mem_cons_self)
      rw [List.headD_cons, if_neg hk]
      refine (ih hrest (fun x hx => hpos x (List.mem_cons_of_mem h hx))
        (fun x hx => hfree x (List.mem_cons_of_mem h hx)) (List.cons_ne_nil k fl)
        (Nat.le_of_succ_le_succ hfuel)).trans ?_
      have hlength : (h :: k :: fl).length = (k :: fl).length + 1 := List.length_cons
      rw [hlength, Nat.cast_succ, add_assoc, add_comm 1]

theorem Laid.sane {P : Set ℕ} (hl : Laid P s bs) (hb : b ∈ bs) :
    ¬(s.size ≤ Malloc.get_size s b.start ∨ Malloc.get_size s b.start = 0) := by
  have hbounds := hl.tiles.bounds hb
  have hsize := (hl.sizes b hb).1
  rw [hl.get_size hb]
  simp only [Block.stop, metadata_size, MINIMUM_PAYLOAD] at hbounds hsize
  omega

theorem validate_blocks_eq {P : Set ℕ} (hl : Laid P s (l ++ b :: r)) (hfuel : r.length < fuel) :
    validate_blocks s fuel b.start = .ok true := by
  induction r generalizing l b fuel with
  | nil =>
    obtain ⟨fuel, rfl⟩ := Nat.exists_eq_succ_of_ne_zero (Nat.ne_of_gt hfuel)
    rw [validate_blocks, hl.next_block_of_end (hl.get_payload_end (by simp))]
    exact if_neg (hl.sane (by simp))
  | cons c r ih =>
    obtain ⟨fuel, rfl⟩ := Nat.exists_eq_succ_of_ne_zero (Nat.ne_of_gt (Nat.zero_lt_of_lt hfuel))
    have hl' : Laid P s ((l ++ [b]) ++ c :: r) := by simpa using hl
    rw [validate_blocks, hl.next_block_of_end (hl.get_payload_end (by simp))]
    exact (if_neg (hl.sane (by simp))).trans (ih hl' (Nat.lt_of_succ_lt_succ hfuel))

/-- As many blocks are listed as are free. -/
theorem Good.length_eq (hg : Good s bs fl) : fl.length = (bs.filter (·.free)).length := by
  have hnodup : ((bs.filter (·.free)).map Block.start).Nodup :=
    hg.laid.tiles.nodup.sublist (List.filter_sublist.map _)
  have hperm : fl.Perm ((bs.filter (·.free)).map Block.start) := by
    refine (List.perm_ext_iff_of_nodup hg.chain.nodup hnodup).mpr fun h => ?_
    rw [List.mem_map]
    constructor
    · intro hh
      obtain ⟨b, hb, rfl⟩ := hg.chain.sites h hh
      exact ⟨b, List.mem_filter.mpr ⟨hb, (hg.exact b hb).mp hh⟩, rfl⟩
    · rintro ⟨b, hb, rfl⟩
      obtain ⟨hb, hfree⟩ := List.mem_filter.mp hb
      exact (hg.exact b hb).mpr hfree
  rw [hperm.length_eq, List.length_map]

/-- With right statistics and a filled free list the heap is valid. -/
theorem Good.validate_heap (hg : Good s bs fl) (hcount : Counted s bs) (hne : fl ≠ []) :
    validate_heap s = .ok 1 := by
  obtain ⟨hblocks_used, hblocks_free, hbytes_used, hbytes_free⟩ : _ ∧ _ ∧ _ ∧ _ := by
    simpa only [Heap.stats, Prod.mk.injEq] using hcount.trans (sum_stats bs)
  have htotal := hg.laid.tiles.sum_sizes
  have hlength := hg.length_eq
  have hfree : validate_free s s.size s.first_free 0 = .ok (some s.blocks_free) := by
    rw [hg.chain.first, hblocks_free, ← hlength, ← zero_add (fl.length : ℤ)]
    refine validate_free_eq hg.chain.links (fun h hh => hg.chain.ne_zero hg.sites hh) (fun h hh => ?_)
      hne hg.length_le
    obtain ⟨b, hb, rfl⟩ := hg.chain.sites h hh
    rw [hg.laid.get_status hb, Block.status, (hg.exact b hb).mp hh]
    rfl
  have hblocks : validate_blocks s s.size s.base = .ok true := by
    have ht := hg.laid.tiles
    have hlen := ht.length_le
    cases bs with
    | nil =>
      obtain ⟨h, hh⟩ := List.exists_mem_of_ne_nil fl hne
      obtain ⟨b, hb, -⟩ := hg.chain.sites h hh
      cases hb
    | cons b bs =>
      have hlaid : Laid _ s ([] ++ b :: bs) := hg.laid
      rw [List.length_cons] at hlen
      rw [← ht.1]
      exact validate_blocks_eq hlaid (by omega)
  have hbytes : BitVec.ofInt 32 (s.blocks_used + s.blocks_free) * BitVec.ofNat 32 metadata_size +
      (s.bytes_used + s.bytes_free) = BitVec.ofNat 32 s.size := by
    rw [hblocks_used, hblocks_free, hbytes_used, hbytes_free, ← Nat.cast_add, BitVec.ofInt_natCast,
      ← BitVec.ofNat_mul, ← BitVec.ofNat_add, ← BitVec.ofNat_add]
    congr 1
    omega
  have hnone : ∀ l : List Block, (l.length : ℤ) = 0 → ¬0 < BitVec.ofNat 32 (l.map Block.size).sum := by
    intro l hl
    rw [List.eq_nil_of_length_eq_zero (Int.natCast_eq_zero.mp hl)]
    decide
  rw [Malloc.validate_heap, if_neg, if_neg, if_neg (not_not.mpr hbytes), hfree]
  · change (if s.blocks_free ≠ s.blocks_free then Except.ok 0
      else validate_blocks s s.size s.base >>= fun valid => .ok (if valid then 1 else 0)) = _
    rw [if_neg (not_not.mpr rfl), hblocks]
    rfl
  · rw [hblocks_free, hbytes_free]
    exact fun h => hnone _ h.1 h.2
  · rw [hblocks_used, hbytes_used]
    exact fun h => hnone _ h.1 h.2

end Validation

namespace Session

/-- As long as no `remove_free_block` leaves `first_free` NULL the statistics are right, and
`validate_heap` returns 1. -/
theorem quiet_sessions_accurate {S : Session} {heap_start heap_size : ℕ} {mem : Bytes}
    (hinit : equiv_malloc_init heap_start heap_size mem = some s) (hstart : 0 < heap_start)
    (hend : heap_start + heap_size < 2 ^ 32) (heven : heap_size % 8 = 0)
    (hS : Reaches Quiet ⟨s, []⟩ S) : Accurate S.heap ∧
      (S.heap.base = heap_start ∧ S.heap.size = heap_size) ∧ validate_heap S.heap = .ok 1 := by
  obtain ⟨bs, fl, hsound, hne, hbounds, hcount⟩ := reaches_quiet hinit hstart hend heven hS
  exact ⟨hsound.good.accurate hcount, hbounds, hsound.good.validate_heap hcount hne⟩

/-- Of three blocks the second is written to and freed, and the first grows over it. -/
theorem quiet_sessions_accurate_grow : ∃ S : Session, S.live = [(68, 24), (108, 16)] ∧
    Accurate S.heap ∧ validate_heap S.heap = .ok 1 := by
  have hrun : ((equiv_malloc_init 64 128 fun _ => 0).bind fun s =>
      (replay Quiet [.call (.malloc 16), .call (.malloc 16), .call (.malloc 16), .write 92 9,
        .call (.free 88), .call (.realloc 68 24)] ⟨s, []⟩).map Session.live) =
      some [(68, 24), (108, 16)] := by
    decide +kernel
  obtain ⟨s, hinit, hrun⟩ := Option.bind_eq_some_iff.mp hrun
  obtain ⟨S, hreplay, hlive⟩ := Option.map_eq_some_iff.mp hrun
  obtain ⟨haccurate, -, hvalid⟩ := quiet_sessions_accurate hinit (by decide) (by decide) (by decide)
    (Reaches.start.replay hreplay)
  exact ⟨S, hlive, haccurate, hvalid⟩

end Session

end EquivChecker.Malloc
