import EquivChecker.HeapSessions

/-!
# What a reallocation keeps

A block that has to grow stays where it is if the free blocks to its right make enough
room for it, and is copied into another block otherwise. Either way the bytes that it
had are found where the returned pointer points; a refused request leaves it as it was.
-/

namespace EquivChecker.Malloc

open Heap Malloc.Field

namespace Session

/-- The live pointer `p` points into a used block of the walk, of `n` bytes or more. -/
structure Holds (S : Session) (p n : ℕ) : Prop where
  live : p ∈ S.live.map Prod.fst
  block : header_of_payload p ∈ blocks S.heap
  used : get_status S.heap (header_of_payload p) = STATUS_USED
  size : n ≤ S.payload_size p

/-- The bytes of the free blocks directly to the right of the block, with their headers. -/
def free_space (S : Session) (p : ℕ) : ℕ :=
  ((free_run S.heap (header_of_payload p)).map fun h => get_size S.heap h + metadata_size).sum

/-- What becomes of a live pointer `p` that is reallocated to `n` bytes, when `q` is returned. -/
structure Resized (S : Session) (p n q : ℕ) (T : Session) : Prop where
  stays : q = p ↔ (n + 7) / 8 * 8 ≤ S.payload_size p ∨
    (n + 7) / 8 * 8 ≤ S.payload_size p + S.free_space p
  served : q ≠ 0 → T.Holds q n ∧ Carries (min (S.payload_size p) n) p q S.heap T.heap
  moved : q ≠ 0 → q ≠ p →
    p ∉ T.live.map Prod.fst ∧ get_status T.heap (header_of_payload p) = STATUS_FREE
  refused : q = 0 → T.Holds p (S.payload_size p) ∧
    Carries (S.payload_size p) p p S.heap T.heap

variable {S T : Session} {n p q : ℕ} {fl : List ℕ} {bs l r : List Block} {b : Block}

theorem header_payload (h : ℕ) : header_of_payload (get_payload_start h) = h := Nat.add_sub_cancel _ _

theorem holds_of_serves (hg : Good S.heap bs fl) (hb : Serves bs n q b)
    (hlive : q ∈ S.live.map Prod.fst) : S.Holds q n := by
  obtain ⟨hmem, hused, hsize, rfl⟩ := hb
  refine ⟨hlive, ?_, ?_, ?_⟩
  · rw [header_payload, hg.blocks]
    exact List.mem_map_of_mem hmem
  · rw [header_payload, hg.laid.get_status hmem, Block.status, hused]
    rfl
  · rw [payload_size, header_payload, hg.laid.get_size hmem]
    exact hsize

theorem payload_size_block (hg : Good S.heap bs fl) (hb : b ∈ bs) :
    S.payload_size (get_payload_start b.start) = b.size := by
  rw [payload_size, header_payload, hg.laid.get_size hb]

/-- The room that a block has to grow into. -/
theorem free_space_eq (hg : Good S.heap (l ++ b :: r) fl) :
    S.free_space (get_payload_start b.start) = span (r.takeWhile Block.free) := by
  rw [free_space, header_payload, hg.free_run, span, List.map_map]
  congr 1
  refine List.map_congr_left fun c hc => ?_
  have hmem : c ∈ l ++ b :: r :=
    List.mem_append_right l (List.mem_cons_of_mem b ((List.takeWhile_sublist _).subset hc))
  rw [Function.comp_apply, hg.laid.get_size hmem, Nat.add_comm]

theorem Sound.resized (h : S.Sound bs fl) (hne : fl ≠ []) (hp : p ∈ S.live.map Prod.fst) (hn : 0 < n)
    (hmax : n ≤ MAX_REQUEST_SIZE) (hquiet : (final Prod.snd (equiv_realloc p n S.heap)).emptied = false) :
    ∃ q t, equiv_realloc p n S.heap = .ok (q, t) ∧
      S.Resized p n q ⟨t, (Call.realloc p n).relive q S.live⟩ := by
  obtain ⟨hg, hlive⟩ := h
  obtain ⟨e, he, rfl⟩ := List.mem_map.mp hp
  obtain ⟨b, hb, hused, hsize, hstart⟩ := hlive.served e he
  obtain ⟨l, r, rfl⟩ := List.append_of_mem hb
  have hround : roundup n ALIGNMENT = (n + 7) / 8 * 8 := roundup_eq hmax
  rw [← hstart] at hp hquiet ⊢
  have hpayload := payload_size_block hg hb
  have hspace : b.size + S.free_space (get_payload_start b.start) =
      (merged b (r.takeWhile Block.free)).size := by
    rw [free_space_eq hg]
    rfl
  have hrelive : ∀ q, (Call.realloc (get_payload_start b.start) n).relive q S.live =
      if q = 0 then S.live else (q, n) :: S.live.filter (·.1 ≠ get_payload_start b.start) :=
    fun q => if_neg fun h => hn.ne' h.2
  have hmoved : get_payload_start b.start ∉
      (S.live.filter (·.1 ≠ get_payload_start b.start)).map Prod.fst := by
    intro hmem
    obtain ⟨d, hd, heq⟩ := List.mem_map.mp hmem
    exact filter_kept S.live _ d hd b.start heq.symm rfl
  have hreturned : ∀ q, q ≠ 0 →
      q ∈ ((Call.realloc (get_payload_start b.start) n).relive q S.live).map Prod.fst := by
    intro q hq
    rw [hrelive, if_neg hq]
    exact List.mem_cons_self
  by_cases hfits : roundup n ALIGNMENT ≤ b.size
  · have hle : n ≤ b.size := by omega
    refine ⟨_, S.heap, equiv_realloc_enough hg hn hmax hfits, ?_, fun hq => ⟨?_, ?_⟩,
      fun _ hne => absurd rfl hne, fun hq => absurd hq (payload_ne_zero _)⟩
    · rw [hpayload, ← hround]
      exact iff_of_true rfl (.inl hfits)
    · exact holds_of_serves hg ⟨hb, hused, hle, rfl⟩ (hreturned _ hq)
    · exact .refl _ _ _
  · have hlt := Nat.lt_of_not_le hfits
    obtain ⟨q, t, bs', fl', hrun, hgt, -, -, hdone, hbytes, -, -⟩ := equiv_realloc_good hg hused hn hmax
      hlt (room_of_quiet hg hne hn hmax hlt hquiet) fun _ => hquiet
    refine ⟨q, t, hrun, ?_, fun hq => ⟨?_, ?_⟩, fun hq hqb => ⟨?_, ?_⟩, fun hq => ⟨?_, ?_⟩⟩
    · rw [hpayload, hspace, ← hround, or_iff_right hfits]
      exact hbytes.stays
    · obtain ⟨b', hb'⟩ := hdone.served hq
      exact holds_of_serves hgt hb' (hreturned q hq)
    · rw [hpayload]
      exact hbytes.served hq
    · rw [hrelive, if_neg hq, List.map_cons, List.mem_cons, not_or]
      exact ⟨Ne.symm hqb, hmoved⟩
    · obtain ⟨d, hd, hdstart, hdfree⟩ := hbytes.freed hq hqb
      rw [header_payload, ← hdstart, hgt.laid.get_status hd, Block.status, hdfree]
      rfl
    · obtain ⟨b', hb'⟩ := hdone.refused hq
      rw [hpayload]
      refine holds_of_serves hgt hb' ?_
      rw [hrelive, if_pos hq]
      exact hp
    · rw [hpayload]
      exact hbytes.refused hq

/-- As long as no `remove_free_block` leaves `first_free` NULL, a reallocation keeps the bytes
of its argument. It moves them only if the block cannot grow far enough where it is. -/
theorem quiet_realloc_keeps {heap_start heap_size : ℕ} {mem : Bytes} {s : Heap}
    (hinit : equiv_malloc_init heap_start heap_size mem = some s) (hstart : 0 < heap_start)
    (hend : heap_start + heap_size < 2 ^ 32) (heven : heap_size % 8 = 0)
    (hS : Reaches Quiet ⟨s, []⟩ S) (hp : p ∈ S.live.map Prod.fst) (hn : 0 < n)
    (hmax : n ≤ MAX_REQUEST_SIZE)
    (hquiet : (final Prod.snd (equiv_realloc p n S.heap)).emptied = false) :
    ∃ q t, equiv_realloc p n S.heap = .ok (q, t) ∧
      S.Resized p n q ⟨t, (Call.realloc p n).relive q S.live⟩ := by
  obtain ⟨bs, fl, hsound, hne, -, -⟩ := reaches_quiet hinit hstart hend heven hS
  exact hsound.resized hne hp hn hmax hquiet

/-- An allocation of 16 bytes, with 16 free bytes behind it, that has to be moved, to the block behind
the next one. -/
theorem quiet_realloc_keeps_moved : ∃ S : Session, S.live = [(108, 16), (68, 16)] ∧
    ∃ t, equiv_realloc 68 40 S.heap = .ok (128, t) ∧ ∀ i < 16, t.mem (128 + i) = S.heap.mem (68 + i) := by
  have hrun : ((equiv_malloc_init 64 256 fun _ => 0).bind fun s =>
      (replay Quiet [.call (.malloc 16), .write 70 9, .call (.malloc 16), .call (.malloc 16),
        .call (.free 88)] ⟨s, []⟩).map fun S =>
        (S.live, S.payload_size 68, (equiv_realloc 68 40 S.heap).toOption.map Prod.fst,
          (final Prod.snd (equiv_realloc 68 40 S.heap)).emptied)) =
      some ([(108, 16), (68, 16)], 16, some 128, false) := by
    decide +kernel
  obtain ⟨s, hinit, hrun⟩ := Option.bind_eq_some_iff.mp hrun
  obtain ⟨S, hreplay, heq⟩ := Option.map_eq_some_iff.mp hrun
  obtain ⟨hlive, hsize, hreturned, hquiet⟩ : S.live = [(108, 16), (68, 16)] ∧ S.payload_size 68 = 16 ∧
      (equiv_realloc 68 40 S.heap).toOption.map Prod.fst = some 128 ∧
      (final Prod.snd (equiv_realloc 68 40 S.heap)).emptied = false := by
    simpa only [Prod.mk.injEq] using heq
  obtain ⟨q, t, hdone, hbytes⟩ := quiet_realloc_keeps hinit (by decide) (by decide) (by decide)
    (Reaches.start.replay hreplay) (by simp [hlive]) (by decide) (by decide) hquiet
  rw [hdone] at hreturned
  obtain rfl : q = 128 := Option.some.inj hreturned
  refine ⟨S, hlive, t, hdone, fun i hi => (hbytes.served (by decide)).2 i ?_⟩
  rw [hsize]
  exact hi

end Session

end EquivChecker.Malloc
