import EquivChecker.HeapSessions

/-!
# The free list of every session

Where no call searches an empty free list or appends to it, the free list holds the free
blocks of the heap, and its links are inverse to one another. A block that is appended
to an empty list keeps whatever its payload holds as its links.
-/

namespace EquivChecker.Malloc

open Heap Malloc.Field

/-- The list that `next_free` leads along, none when it has not ended within the fuel. -/
def links (s : Heap) : ℕ → ℕ → Option (List ℕ)
  | 0, header => if header = 0 then some [] else none
  | fuel + 1, header =>
    if header = 0 then some []
    else (links s fuel (s.load header next_free)).map (header :: ·)

/-- The free list; one that visits no block twice has fewer entries than the heap has bytes. -/
def free_list (s : Heap) : Option (List ℕ) := links s s.size s.first_free

/-- The free list visits exactly the free blocks of the walk, each once, and
`previous_free` is the inverse link. -/
def FreeListExact (s : Heap) : Prop :=
  ∃ l, free_list s = some l ∧ l.Nodup ∧
    (∀ h, h ∈ l ↔ h ∈ blocks s ∧ get_status s h = STATUS_FREE) ∧
    l.map (s.load · previous_free) = (0 :: l).dropLast

/-- The size of a block with the free blocks directly to its right. -/
def grown_size (s : Heap) (header : ℕ) : ℕ :=
  get_size s header + ((free_run s header).map fun h => metadata_size + get_size s h).sum

/-- The free blocks that are not directly to the right of a block. -/
def other_free (s : Heap) (header : ℕ) : List ℕ :=
  (blocks s).filter fun h => get_status s h = STATUS_FREE ∧ h ∉ free_run s header

/-- A block that has to grow to `needs` bytes leaves a free block to append to or search:
either it grows in place, without a rest to give back or with another free block, or there
are other free blocks, and not just one that is used up. -/
def Growable (s : Heap) (header needs : ℕ) : Prop :=
  if needs ≤ grown_size s header then
    grown_size s header - needs < metadata_size + MINIMUM_PAYLOAD ∨ other_free s header ≠ []
  else other_free s header ≠ [] ∧ ∀ h ∈ other_free s header, other_free s header = [h] →
    get_size s h < needs ∨ metadata_size + MINIMUM_PAYLOAD ≤ get_size s h - needs

/-- The free list is not empty where the call searches it or appends to it. -/
def Call.Supplied (s : Heap) : Call → Prop
  | malloc n => n = 0 ∨ MAX_REQUEST_SIZE < n ∨ s.first_free ≠ 0
  | free p => p = 0 ∨ s.first_free ≠ 0
  | realloc p n =>
    if p = 0 then n = 0 ∨ MAX_REQUEST_SIZE < n ∨ s.first_free ≠ 0
    else if n = 0 then s.first_free ≠ 0
    else MAX_REQUEST_SIZE < n ∨ roundup n ALIGNMENT ≤ get_size s (header_of_payload p) ∨
      Growable s (header_of_payload p) (roundup n ALIGNMENT)

instance (s : Heap) (header needs : ℕ) : Decidable (Growable s header needs) := by
  unfold Growable
  infer_instance

instance (s : Heap) : (c : Call) → Decidable (c.Supplied s)
  | .malloc n => inferInstanceAs (Decidable (n = 0 ∨ MAX_REQUEST_SIZE < n ∨ s.first_free ≠ 0))
  | .free p => inferInstanceAs (Decidable (p = 0 ∨ s.first_free ≠ 0))
  | .realloc p n => inferInstanceAs (Decidable (if p = 0 then _ else if n = 0 then _ else _))

variable {s : Heap} {lo hi header fuel p n needs : ℕ} {fl : List ℕ} {bs l r : List Block} {b c : Block}

section Exact

theorem links_eq (hl : Linked (s.load · next_free) (s.load · previous_free) p fl 0)
    (hpos : ∀ h ∈ fl, h ≠ 0) (hfuel : fl.length ≤ fuel) : links s fuel (fl.headD 0) = some fl := by
  induction fl generalizing p fuel with
  | nil => cases fuel <;> rfl
  | cons h fl ih =>
    obtain ⟨fuel, rfl⟩ := Nat.exists_eq_succ_of_ne_zero (Nat.ne_of_gt (Nat.zero_lt_of_lt hfuel))
    obtain ⟨-, hnext, hrest⟩ := hl
    simp only at hnext
    rw [List.headD_cons, links, if_neg (hpos h List.mem_cons_self), hnext,
      ih hrest (fun x hx => hpos x (List.mem_cons_of_mem h hx)) (Nat.le_of_succ_le_succ hfuel)]
    rfl

theorem Good.mem_free_iff (hg : Good s bs fl) (h : ℕ) :
    h ∈ fl ↔ h ∈ Malloc.blocks s ∧ get_status s h = STATUS_FREE := by
  rw [hg.blocks]
  constructor
  · intro hh
    obtain ⟨b, hb, rfl⟩ := hg.chain.sites h hh
    exact ⟨List.mem_map_of_mem hb, (status_free_iff hg.laid hb).mpr ((hg.exact b hb).mp hh)⟩
  · rintro ⟨hh, hfree⟩
    obtain ⟨b, hb, rfl⟩ := List.mem_map.mp hh
    exact (hg.exact b hb).mpr ((status_free_iff hg.laid hb).mp hfree)

theorem Good.freeListExact (hg : Good s bs fl) : FreeListExact s := by
  refine ⟨fl, ?_, hg.chain.nodup, hg.mem_free_iff, hg.chain.links.map_prev⟩
  rw [free_list, hg.chain.first]
  exact links_eq hg.chain.links (fun h hh => hg.chain.ne_zero hg.sites hh) hg.length_le

end Exact

section Supply

theorem Tiles.nodup (ht : Tiles lo bs hi) : (bs.map Block.start).Nodup := by
  induction bs generalizing lo with
  | nil => exact List.nodup_nil
  | cons b bs ih =>
    have hright := (Tiles.lt_of_append (l := []) ht).2
    refine List.nodup_cons.mpr ⟨fun hmem => ?_, ih ht.2⟩
    obtain ⟨c, hc, heq⟩ := List.mem_map.mp hmem
    exact (hright c hc).ne' heq

theorem Good.grown_size (hg : Good s (l ++ b :: r) fl) :
    grown_size s b.start = (merged b (r.takeWhile Block.free)).size := by
  rw [Malloc.grown_size, hg.free_run, hg.laid.get_size (by simp), List.map_map, merged, span]
  refine congrArg (b.size + ·) (congrArg List.sum (List.map_congr_left fun c hc => ?_))
  have hmem : c ∈ l ++ b :: r := by simp [(List.takeWhile_sublist _).subset hc]
  exact congrArg (metadata_size + ·) (hg.laid.get_size hmem)

theorem Good.other_free (hg : Good s (l ++ b :: r) fl) :
    (other_free s b.start).Perm (fl.diff ((r.takeWhile Block.free).map Block.start)) := by
  refine (List.perm_ext_iff_of_nodup ?_ hg.chain.nodup.diff).mpr fun h => ?_
  · rw [Malloc.other_free, hg.blocks]
    exact hg.laid.tiles.nodup.filter _
  · rw [hg.chain.nodup.mem_sdiff_iff, hg.mem_free_iff, Malloc.other_free, List.mem_filter,
      hg.free_run, decide_eq_true_iff, and_assoc]

theorem Good.room (hg : Good s (l ++ b :: r) fl) (hused : b.free = false)
    (hgrow : Growable s b.start (roundup n ALIGNMENT)) : Room l b r fl n False := by
  have hperm := hg.other_free
  have hnil : Malloc.other_free s b.start ≠ [] → fl.diff ((r.takeWhile Block.free).map Block.start) ≠ [] := by
    intro hne heq
    rw [heq] at hperm
    exact hne hperm.eq_nil
  rw [Growable, hg.grown_size] at hgrow
  split at hgrow
  · rename_i hfits
    refine ⟨fun _ hspare => ?_, fun hlt => absurd hfits (Nat.not_le.mpr hlt),
      fun hlt => absurd hfits (Nat.not_le.mpr hlt)⟩
    rcases hgrow with hsmall | hne
    · exact absurd (if_neg (Nat.not_le.mpr hsmall)) hspare
    · exact hnil hne
  · rename_i hfits
    obtain ⟨hne, hlast⟩ := hgrow
    refine ⟨fun hfits' => absurd hfits' hfits, fun _ => hnil hne, fun _ c hc hcf hle => .inr ?_⟩
    intro hnone
    obtain ⟨hspare, herase⟩ := List.append_eq_nil_iff.mp hnone
    -- the block is the only other free one, and is used up
    have hmem : c.start ∈ fl.diff ((r.takeWhile Block.free).map Block.start) := by
      by_contra hnot
      rw [List.erase_of_not_mem hnot] at herase
      exact hnil hne herase
    have honly : Malloc.other_free s b.start = [c.start] := by
      have hcons := List.perm_cons_erase hmem
      rw [herase] at hcons
      exact List.perm_singleton.mp (hperm.trans hcons)
    have hcbs : c ∈ l ++ b :: r := by
      rcases List.mem_append.mp hc with hc | hc
      · exact List.mem_append_left _ hc
      · rcases List.mem_cons.mp hc with rfl | hc
        · rw [show (merged b (r.takeWhile Block.free)).free = b.free from rfl, hused] at hcf
          cases hcf
        · exact List.mem_append_right _ (List.mem_cons_of_mem b ((List.dropWhile_sublist _).subset hc))
    rcases hlast c.start (honly ▸ List.mem_singleton_self _) honly with hlt | hbig
    · rw [hg.laid.get_size hcbs] at hlt
      exact absurd hle (Nat.not_le.mpr hlt)
    · rw [hg.laid.get_size hcbs] at hbig
      rw [spare, if_pos hbig] at hspare
      cases hspare

/-- Under a supplied call the free list is not empty where it is needed. -/
theorem supplied_roomy (hg : Good s bs fl) {c : Call} (hc : c.Supplied s) : Session.Roomy bs fl False c := by
  have hfirst : s.first_free ≠ 0 → fl ≠ [] := by
    rintro hne rfl
    exact hne hg.chain.first
  have hmalloc : ∀ n, n = 0 ∨ MAX_REQUEST_SIZE < n ∨ s.first_free ≠ 0 →
      0 < n → n ≤ MAX_REQUEST_SIZE → fl ≠ [] := by
    rintro n (hn | hn | hn) hpos hmax
    · omega
    · omega
    · exact hfirst hn
  cases c with
  | malloc n => exact hmalloc n hc
  | free p =>
    rintro hp
    exact hfirst (hc.resolve_left hp)
  | realloc p n =>
    rw [Call.Supplied] at hc
    rw [Session.Roomy]
    split at hc
    · rename_i hp
      rw [if_pos hp]
      exact hmalloc n hc
    · rename_i hp
      rw [if_neg hp]
      split at hc
      · rename_i hn
        rw [if_pos hn]
        exact hfirst hc
      · rename_i hn
        rw [if_neg hn]
        rintro l b r rfl rfl hused hmax hsize
        have hheader : header_of_payload (get_payload_start b.start) = b.start :=
          Nat.add_sub_cancel _ _
        rw [hheader, hg.laid.get_size (by simp)] at hc
        rcases hc with hc | hc | hc
        · omega
        · omega
        · exact hg.room hused hc

end Supply

namespace Session

/-- Calls are supplied. -/
def Supplied (S : Session) : Event → Session → Prop
  | .call c, _ => c.Supplied S.heap
  | .write _ _, _ => True

instance (S : Session) : (e : Event) → (T : Session) → Decidable (S.Supplied e T)
  | .call c, _ => inferInstanceAs (Decidable (c.Supplied S.heap))
  | .write _ _, _ => inferInstanceAs (Decidable True)

variable {S : Session}

theorem Sound.supplied_call {bs : List Block} {fl : List ℕ} (h : S.Sound bs fl) {c : Call}
    (hvalid : c.Valid S.live) (hc : c.Supplied S.heap) : ∃ q t bs' fl', c.run S.heap = .ok (q, t) ∧
      Answer S.heap bs fl S.live c q t bs' fl' ∧ Accounts S.heap bs t bs' :=
  h.call hvalid (supplied_roomy h.good hc) False.elim

/-- Sessions whose calls are all supplied are well formed. -/
theorem reaches_supplied {heap_start heap_size : ℕ} {mem : Bytes} {s : Heap}
    (hinit : equiv_malloc_init heap_start heap_size mem = some s) (hstart : 0 < heap_start)
    (hend : heap_start + heap_size < 2 ^ 32) (heven : heap_size % 8 = 0)
    (hS : Reaches Supplied ⟨s, []⟩ S) : ∃ bs fl, S.Sound bs fl ∧ S.heap.size = heap_size := by
  obtain ⟨bs, fl, hsound, -, hbounds, -⟩ := reaches_sound (fun _ => True) hinit hstart hend heven trivial
    (fun {S bs fl c q t} hsound _ hvalid hrun hc => by
      obtain ⟨q', t', bs', fl', hrun', hanswer⟩ := hsound.supplied_call hvalid hc
      cases hrun.symm.trans hrun'
      exact ⟨bs', fl', hanswer, trivial⟩) hS
  exact ⟨bs, fl, hsound, hbounds.2⟩

/-- As long as every call is supplied the free list is exact, and every valid and supplied
call returns. -/
theorem supplied_sessions_exact {heap_start heap_size : ℕ} {mem : Bytes} {s : Heap}
    (hinit : equiv_malloc_init heap_start heap_size mem = some s) (hstart : 0 < heap_start)
    (hend : heap_start + heap_size < 2 ^ 32) (heven : heap_size % 8 = 0)
    (hS : Reaches Supplied ⟨s, []⟩ S) : FreeListExact S.heap ∧
      ∀ c : Call, c.Valid S.live → c.Supplied S.heap →
        ∃ q t, c.run S.heap = .ok (q, t) ∧ FreeListExact t := by
  obtain ⟨bs, fl, hsound, -⟩ := reaches_supplied hinit hstart hend heven hS
  refine ⟨hsound.good.freeListExact, fun c hvalid hc => ?_⟩
  obtain ⟨q, t, bs', fl', hrun, hanswer, -⟩ := hsound.supplied_call hvalid hc
  exact ⟨q, t, hrun, hanswer.good.freeListExact⟩

/-- Of three blocks the second is written to and freed, and the first grows over it. -/
theorem supplied_sessions_exact_grow : ∃ S : Session, S.live = [(68, 24), (108, 16)] ∧ FreeListExact S.heap ∧
    ∃ q t, (Call.free 68).run S.heap = .ok (q, t) ∧ FreeListExact t := by
  have hrun : ((equiv_malloc_init 64 128 fun _ => 0).bind fun s =>
      (replay Supplied [.call (.malloc 16), .call (.malloc 16), .call (.malloc 16), .write 92 9,
        .call (.free 88), .call (.realloc 68 24)] ⟨s, []⟩).map fun S =>
          (S.live, decide ((Call.free 68).Valid S.live ∧ (Call.free 68).Supplied S.heap))) =
      some ([(68, 24), (108, 16)], true) := by
    decide +kernel
  obtain ⟨s, hinit, hrun⟩ := Option.bind_eq_some_iff.mp hrun
  obtain ⟨S, hreplay, heq⟩ := Option.map_eq_some_iff.mp hrun
  obtain ⟨hlive, hfree⟩ := Prod.mk.inj heq
  obtain ⟨hvalid, hsupplied⟩ := of_decide_eq_true hfree
  obtain ⟨hexact, hcalls⟩ := supplied_sessions_exact hinit (by decide) (by decide) (by decide)
    (Reaches.start.replay hreplay)
  exact ⟨S, hlive, hexact, hcalls _ hvalid hsupplied⟩

/-- The only block is allocated, written to and freed: its payload is left in the links. -/
theorem not_freeListExact : ∃ (s : Heap) (S : Session),
    equiv_malloc_init 64 32 (fun _ => 0) = some s ∧ Reaches (fun _ _ _ => True) ⟨s, []⟩ S ∧
      S.live = [] ∧ ¬FreeListExact S.heap := by
  have hrun : ((equiv_malloc_init 64 32 fun _ => 0).bind fun s =>
      (replay (fun _ _ _ => True) [.call (.malloc 24), .write 72 9, .call (.free 68)] ⟨s, []⟩).map
        fun S => (S.live, blocks S.heap, free_list S.heap)) = some ([], [64], some [64, 9]) := by
    decide +kernel
  obtain ⟨s, hinit, hrun⟩ := Option.bind_eq_some_iff.mp hrun
  obtain ⟨S, hreplay, heq⟩ := Option.map_eq_some_iff.mp hrun
  obtain ⟨hlive, hblocks, hlist⟩ : S.live = [] ∧ blocks S.heap = [64] ∧
      free_list S.heap = some [64, 9] := by
    simpa using heq
  refine ⟨s, S, hinit, Reaches.start.replay hreplay, hlive, ?_⟩
  rintro ⟨l, hl, -, hmem, -⟩
  cases hlist.symm.trans hl
  have hblock := ((hmem 9).mp (by decide)).1
  rw [hblocks] at hblock
  exact absurd hblock (by decide)

end Session

end EquivChecker.Malloc
