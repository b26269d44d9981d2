import EquivChecker.HeapEffects

/-!
# Sessions of the allocator

A session is a heap with the allocations that are live, and the size last requested for
each. Callers make calls on live pointers, and write into their payloads in between. In
a session that never empties the free list the allocations are safe from each other and
from the allocator.
-/

namespace EquivChecker.Malloc

open Heap Malloc.Field

section Walk

/-- The blocks from `header` on, as `next_block` finds them. -/
def walk (s : Heap) : ℕ → ℕ → List ℕ
  | 0, _ => []
  | fuel + 1, header =>
    header :: match next_block s header with
      | none => []
      | some next => walk s fuel next

/-- The `next_block` walk from `heap.base`; a heap has fewer blocks than bytes. -/
def blocks (s : Heap) : List ℕ := walk s s.size s.base

/-- The blocks of the `next_block` walk, as their headers describe them. -/
def layout (s : Heap) : List Block :=
  (blocks s).map fun h => ⟨h, get_size s h, get_status s h = STATUS_FREE⟩

/-- The free blocks directly to the right of a block. -/
def free_run (s : Heap) (header : ℕ) : List ℕ :=
  ((blocks s).filter (header < ·)).takeWhile (get_status s · = STATUS_FREE)

variable {P : Set ℕ} {s : Heap} {fl : List ℕ} {bs l r : List Block} {b : Block} {lo hi fuel : ℕ}

theorem walk_eq (hl : Laid P s (l ++ b :: r)) (hfuel : r.length < fuel) :
    walk s fuel b.start = (b :: r).map Block.start := by
  induction r generalizing l b fuel with
  | nil =>
    obtain ⟨fuel, rfl⟩ := Nat.exists_eq_succ_of_ne_zero (Nat.ne_of_gt hfuel)
    rw [walk, hl.next_block_of_end (hl.get_payload_end (by simp))]
    rfl
  | cons c r ih =>
    obtain ⟨fuel, rfl⟩ := Nat.exists_eq_succ_of_ne_zero (Nat.ne_of_gt (Nat.zero_lt_of_lt hfuel))
    have hl' : Laid P s ((l ++ [b]) ++ c :: r) := by simpa using hl
    rw [walk, hl.next_block_of_end (hl.get_payload_end (by simp)), List.map_cons,
      ← ih hl' (Nat.lt_of_succ_lt_succ hfuel)]
    rfl

theorem Good.blocks (hg : Good s bs fl) : blocks s = bs.map Block.start := by
  have hlen := hg.laid.tiles.length_le
  have ht := hg.laid.tiles
  cases bs with
  | nil =>
    have hsize : s.base = s.base + s.size := ht
    rw [Malloc.blocks, show s.size = 0 by omega]
    rfl
  | cons b bs =>
    obtain ⟨hb, -⟩ := ht
    have hlaid : Laid _ s ([] ++ b :: bs) := hg.laid
    rw [List.length_cons] at hlen
    rw [Malloc.blocks, ← hb]
    exact walk_eq hlaid (by omega)

theorem status_free_iff (hl : Laid P s bs) (hb : b ∈ bs) :
    get_status s b.start = STATUS_FREE ↔ b.free = true := by
  rw [hl.get_status hb, Block.status]
  cases b.free <;> decide

theorem Good.layout (hg : Good s bs fl) : layout s = bs := by
  rw [Malloc.layout, hg.blocks, List.map_map]
  refine (List.map_congr_left fun b hb => ?_).trans (List.map_id bs)
  simp only [Function.comp_apply, hg.laid.get_size hb, hg.laid.get_status hb, id_eq]
  cases b with
  | mk start size free => cases free <;> rfl

theorem Tiles.lt_of_append (ht : Tiles lo (l ++ b :: r) hi) :
    (∀ c ∈ l, c.start < b.start) ∧ ∀ c ∈ r, b.start < c.start := by
  obtain ⟨mid, hl, hb, hr⟩ := Tiles.append_iff.mp ht
  constructor
  · intro c hc
    have hle := (hl.bounds hc).2
    exact c.start_lt_stop.trans_le (hle.trans hb.ge)
  · intro c hc
    exact b.start_lt_stop.trans_le (hr.bounds hc).1

theorem takeWhile_eq (hs : ∀ c ∈ r, get_status s c.start = STATUS_FREE ↔ c.free = true) :
    (r.map Block.start).takeWhile (get_status s · = STATUS_FREE) =
      (r.takeWhile Block.free).map Block.start := by
  induction r with
  | nil => rfl
  | cons c r ih =>
    have hrest := ih fun d hd => hs d (List.mem_cons_of_mem c hd)
    have hc := hs c List.mem_cons_self
    by_cases hfree : c.free = true
    · rw [List.map_cons, List.takeWhile_cons_of_pos (by simpa using hc.mpr hfree), hrest,
        List.takeWhile_cons_of_pos hfree, List.map_cons]
    · rw [List.map_cons, List.takeWhile_cons_of_neg (by simpa using fun h => hfree (hc.mp h)),
        List.takeWhile_cons_of_neg hfree, List.map_nil]

theorem Good.free_run (hg : Good s (l ++ b :: r) fl) :
    free_run s b.start = (r.takeWhile Block.free).map Block.start := by
  obtain ⟨hleft, hright⟩ := hg.laid.tiles.lt_of_append
  have hfilter : ((l ++ b :: r).map Block.start).filter (b.start < ·) = r.map Block.start := by
    rw [List.map_append, List.map_cons, List.filter_append, List.filter_cons_of_neg (by simp),
      List.filter_eq_nil_iff.mpr, List.filter_eq_self.mpr, List.nil_append]
    · intro h hh
      obtain ⟨c, hc, rfl⟩ := List.mem_map.mp hh
      simpa using hright c hc
    · intro h hh
      obtain ⟨c, hc, rfl⟩ := List.mem_map.mp hh
      simpa using (hleft c hc).le
  rw [Malloc.free_run, hg.blocks, hfilter]
  exact takeWhile_eq fun c hc => status_free_iff hg.laid (by simp [hc])

end Walk

/-- A heap has room for a block. -/
theorem equiv_malloc_init_size {heap_start heap_size : ℕ} {mem : Bytes} {s : Heap}
    (hinit : equiv_malloc_init heap_start heap_size mem = some s) :
    ¬heap_size < header_size + MINIMUM_PAYLOAD := by
  intro hlt
  rw [equiv_malloc_init, if_pos hlt] at hinit
  cases hinit

/-- A fresh heap is one free block. -/
theorem equiv_malloc_init_good {heap_start heap_size : ℕ} {mem : Bytes} {s : Heap}
    (hinit : equiv_malloc_init heap_start heap_size mem = some s) (hstart : 0 < heap_start)
    (hend : heap_start + heap_size < 2 ^ 32) (heven : heap_size % 8 = 0) :
    Good s [⟨heap_start, heap_size - metadata_size, true⟩] [heap_start] ∧ s.emptied = false ∧
      s.base = heap_start ∧ s.size = heap_size := by
  have hmin := equiv_malloc_init_size hinit
  rw [equiv_malloc_init, if_neg hmin] at hinit
  simp only [header_size, MINIMUM_PAYLOAD] at hmin
  obtain ⟨b, hb⟩ : ∃ b : Block, b = ⟨heap_start, heap_size - metadata_size, true⟩ := ⟨_, rfl⟩
  have hbsize : b.size = heap_size - 4 := by rw [hb]; rfl
  have hbstart : b.start = heap_start := by rw [hb]
  have ht : Tiles heap_start [b] (heap_start + heap_size) := by
    refine ⟨hbstart, ?_⟩
    simp only [Tiles, Block.stop, metadata_size, hbsize, hbstart]
    omega
  have hsizes : ∀ c ∈ [b], MINIMUM_PAYLOAD ≤ c.size ∧ c.size % 2 = 0 := by
    intro c hc
    rw [List.mem_singleton.mp hc, hbsize]
    simp only [MINIMUM_PAYLOAD]
    omega
  have hP := sites_starts hstart ht hend hsizes
  have hmem : heap_start ∈ starts [b] := ⟨b, List.mem_singleton_self b, hbstart⟩
  have hsame : s.emptied = false ∧ s.base = heap_start ∧ s.size = heap_size ∧
      s.first_free = heap_start := by
    cases hinit
    exact ⟨rfl, rfl, rfl, rfl⟩
  have hload : ∀ f, s.load heap_start f = if f = metadata then b.word else 0 := by
    intro f
    have hfields : (heap_size - metadata_size) % 2 = 0 ∧ heap_size - metadata_size < 2 ^ 32 := by
      simp only [metadata_size]
      omega
    cases hinit
    change (((make_block heap_start STATUS_FREE (heap_size - metadata_size) _).store heap_start
      previous_free 0).store heap_start next_free 0).load heap_start f = _
    rw [load_store hP hmem hmem _ _ (by decide), load_store hP hmem hmem _ _ (by decide),
      load_make_block hP hmem hmem hfields.1 hfields.2, hb]
    cases f <;> simp
  rw [← hb]
  refine ⟨⟨hsame.2.1 ▸ hstart, ⟨?_, ?_, hsizes, ?_, fun c hc => start_mem hc⟩,
    ⟨?_, List.nodup_singleton _, ⟨hload previous_free, hload next_free, trivial⟩, hsame.2.2.2⟩, ?_⟩,
    hsame.1, hsame.2.1, hsame.2.2.1⟩
  · rw [hsame.2.1, hsame.2.2.1]
    exact ht
  · rw [hsame.2.1, hsame.2.2.1]
    exact hend
  · intro c hc
    rw [List.mem_singleton.mp hc, hbstart]
    exact hload metadata
  · intro h hh
    rw [List.mem_singleton.mp hh]
    exact hmem
  · intro c hc
    rw [List.mem_singleton.mp hc, hbstart, hb]
    simp

theorem equiv_malloc_init_counted {heap_start heap_size : ℕ} {mem : Bytes} {s : Heap}
    (hinit : equiv_malloc_init heap_start heap_size mem = some s) :
    Counted s [⟨heap_start, heap_size - metadata_size, true⟩] := by
  rw [equiv_malloc_init, if_neg (equiv_malloc_init_size hinit)] at hinit
  cases hinit
  rw [Counted, List.map_singleton, List.sum_singleton, Block.stats_free rfl]
  rfl

/-- The pointers that a call is given. -/
def Call.args : Call → List ℕ
  | malloc _ => []
  | realloc old_ptr _ => [old_ptr]
  | free ptr => [ptr]

/-- The live allocations after a call that returns `q`: payload pointers, with the size last
requested for each. -/
def Call.relive (q : ℕ) (live : List (ℕ × ℕ)) : Call → List (ℕ × ℕ)
  | malloc requested_size => if q = 0 then live else (q, requested_size) :: live
  | realloc old_ptr new_size =>
    if old_ptr ≠ 0 ∧ new_size = 0 then live.filter (·.1 ≠ old_ptr)
    else if q = 0 then live else (q, new_size) :: live.filter (·.1 ≠ old_ptr)
  | free ptr => live.filter (·.1 ≠ ptr)

/-- Every pointer that is passed is NULL or live. -/
def Call.Valid (live : List (ℕ × ℕ)) (c : Call) : Prop :=
  ∀ p ∈ c.args, p ≠ 0 → p ∈ live.map Prod.fst

/-- Live allocations are used blocks that are large enough. -/
structure LiveIn (bs : List Block) (live : List (ℕ × ℕ)) : Prop where
  served : ∀ e ∈ live, ∃ b, Serves bs e.2 e.1 b
  nodup : (live.map Prod.fst).Nodup

section Answers
variable {s t : Heap} {n q p : ℕ} {A : Set ℕ} {fl : List ℕ} {bs bs' l r : List Block} {b : Block}
  {live live' : List (ℕ × ℕ)} {c : Call}

theorem LiveIn.spares (h : LiveIn bs live) (hst : Spares A s bs t bs') (hsub : live'.Sublist live)
    (hA : ∀ e ∈ live', ∀ k, get_payload_start k = e.1 → k ∉ A) : LiveIn bs' live' where
  served e he := by
    obtain ⟨b, hmem, hused, hsize, hstart⟩ := h.served e (hsub.subset he)
    exact ⟨b, (hst b hmem hused (hA e he b.start hstart)).1, hused, hsize, hstart⟩
  nodup := h.nodup.sublist (hsub.map Prod.fst)

theorem LiveIn.cons (h : LiveIn bs live) (hb : Serves bs n q b) (hq : q ∉ live.map Prod.fst) :
    LiveIn bs ((q, n) :: live) where
  served e he := by
    rcases List.mem_cons.mp he with rfl | he
    · exact ⟨b, hb⟩
    · exact h.served e he
  nodup := List.nodup_cons.mpr ⟨hq, h.nodup⟩

/-- What a call that returns leads to. -/
structure Answer (s : Heap) (bs : List Block) (fl : List ℕ) (live : List (ℕ × ℕ)) (c : Call)
    (q : ℕ) (t : Heap) (bs' : List Block) (fl' : List ℕ) : Prop where
  good : Good t bs' fl'
  kept : t.emptied = false → fl ≠ [] → fl' ≠ []
  spares : Spares {k | get_payload_start k ∈ c.args} s bs t bs'
  live : LiveIn bs' (c.relive q live)
  bounds : SameBounds s t

theorem Answer.refl (hg : Good s bs fl) (hlive : LiveIn bs (c.relive q live)) :
    Answer s bs fl live c q s bs fl :=
  ⟨hg, fun _ h => h, Spares.refl _ s bs, hlive, rfl, rfl⟩

theorem spare_or_erase {fl' : List ℕ} (hempty : t.emptied = (s.emptied || fl' == []))
    (hquiet : t.emptied = false) : fl' ≠ [] := by
  rintro rfl
  rw [hempty] at hquiet
  simp at hquiet

theorem malloc_answer (hg : Good s bs fl) (hlive : LiveIn bs live)
    (hne : 0 < n → n ≤ MAX_REQUEST_SIZE → fl ≠ []) : ∃ q t bs' fl',
      equiv_malloc n s = .ok (q, t) ∧ Answer s bs fl live (.malloc n) q t bs' fl' ∧
      Accounts s bs t bs' := by
  by_cases hn : 0 < n ∧ n ≤ MAX_REQUEST_SIZE
  · rcases equiv_malloc_effect hg (hne hn.1 hn.2) hn.1 hn.2 with ⟨hnone, -⟩ | ⟨b, hb, hbf, -, b', t,
      bs', hrun, hgt, hspares, hserves, -, hempty, hbounds, hcount⟩
    · exact ⟨0, s, bs, fl, hnone, .refl hg hlive, .of_stats rfl bs⟩
    · refine ⟨_, t, bs', _, hrun, ⟨hgt, fun hquiet _ => spare_or_erase hempty hquiet,
        hspares.mono (Set.empty_subset _), ?_, hbounds⟩, hcount⟩
      rw [Call.relive, if_neg (payload_ne_zero _)]
      refine (hlive.spares hspares (List.Sublist.refl _) fun _ _ _ _ => Set.notMem_empty _).cons
        (hserves.mono (needed_spec hn.2).2.2.1) fun hmem => ?_
      -- the block was free, so it served no allocation
      obtain ⟨e, he, heq⟩ := List.mem_map.mp hmem
      obtain ⟨d, hd, hused, -, hstart⟩ := hlive.served e he
      have hdb := hg.laid.tiles.eq_of_start hd hb (payload_inj (hstart.trans heq))
      rw [← hdb, hused] at hbf
      cases hbf
  · have hcond : n = 0 ∨ MAX_REQUEST_SIZE < n := by omega
    exact ⟨0, s, bs, fl, equiv_malloc_refused s hcond, .refl hg hlive, .of_stats rfl bs⟩

theorem filter_kept (live : List (ℕ × ℕ)) (p : ℕ) : ∀ e ∈ live.filter (·.1 ≠ p), ∀ k,
    get_payload_start k = e.1 → get_payload_start k ≠ p := by
  intro e he k hk
  have hne := (List.mem_filter.mp he).2
  rw [hk]
  simpa using hne

theorem free_answer (hg : Good s bs fl) (hlive : LiveIn bs live) (hp : p ≠ 0 → p ∈ live.map Prod.fst)
    (hne : p ≠ 0 → fl ≠ []) : ∃ t bs' fl', equiv_free p s = .ok t ∧ Good t bs' fl' ∧
      (fl ≠ [] → fl' ≠ []) ∧ Spares {k | get_payload_start k = p} s bs t bs' ∧
      LiveIn bs' (live.filter (·.1 ≠ p)) ∧ SameBounds s t ∧ Accounts s bs t bs' := by
  by_cases hp0 : p = 0
  · refine ⟨s, bs, fl, if_pos hp0, hg, fun h => h, Spares.refl _ s bs, ?_, ⟨rfl, rfl⟩,
      .of_stats rfl bs⟩
    exact hlive.spares (Spares.refl _ s bs) List.filter_sublist (filter_kept live p)
  · obtain ⟨e, he, rfl⟩ := List.mem_map.mp (hp hp0)
    obtain ⟨b, hb, hused, -, hstart⟩ := hlive.served e he
    obtain ⟨t, bs', fl', hrun, hgt, hfl', -, hspares, -, hbounds, hcount⟩ :=
      equiv_free_effect hg hb hused (hne hp0)
    rw [hstart] at hrun
    have hspares' : Spares {k | get_payload_start k = e.1} s bs t bs' := by
      refine hspares.mono ?_
      rintro _ rfl
      exact hstart
    exact ⟨t, bs', fl', hrun, hgt, fun _ => hfl', hspares',
      hlive.spares hspares' List.filter_sublist (filter_kept live e.1), hbounds, hcount⟩

theorem realloc_answer (hg : Good s bs fl) (hlive : LiveIn bs live) (hp : p ≠ 0)
    (hvalid : p ∈ live.map Prod.fst) (hn : 0 < n) {quiet : Prop}
    (hroom : ∀ l b r, bs = l ++ b :: r → get_payload_start b.start = p → b.free = false →
      n ≤ MAX_REQUEST_SIZE → b.size < roundup n ALIGNMENT → Room l b r fl n quiet)
    (hquiet : quiet → (final Prod.snd (equiv_realloc p n s)).emptied = false) :
    ∃ q t bs' fl', equiv_realloc p n s = .ok (q, t) ∧
      Answer s bs fl live (.realloc p n) q t bs' fl' ∧ Accounts s bs t bs' := by
  obtain ⟨e, he, rfl⟩ := List.mem_map.mp hvalid
  obtain ⟨b, hb, hused, hsize, hstart⟩ := hlive.served e he
  obtain ⟨l, r, rfl⟩ := List.append_of_mem hb
  have hrelive : ∀ q, (Call.realloc e.1 n).relive q live =
      if q = 0 then live else (q, n) :: live.filter (·.1 ≠ e.1) :=
    fun q => if_neg fun h => hn.ne' h.2
  have hself : e.1 ∉ (live.filter (·.1 ≠ e.1)).map Prod.fst := by
    intro hmem
    obtain ⟨d, hd, heq⟩ := List.mem_map.mp hmem
    have hne := (List.mem_filter.mp hd).2
    simp [heq] at hne
  by_cases hmax : n ≤ MAX_REQUEST_SIZE
  · by_cases hfits : roundup n ALIGNMENT ≤ b.size
    · have hrun := equiv_realloc_enough hg hn hmax hfits
      rw [hstart] at hrun
      refine ⟨e.1, s, _, fl, hrun, .refl hg ?_, .of_stats rfl _⟩
      rw [hrelive, if_neg hp]
      have hle : n ≤ roundup n ALIGNMENT := by
        rw [roundup_eq hmax]
        omega
      have hkept := hlive.spares (Spares.refl {k | get_payload_start k = e.1} s _)
        List.filter_sublist (filter_kept live e.1)
      exact hkept.cons ⟨hb, hused, hle.trans hfits, hstart⟩ hself
    · have hlt := Nat.lt_of_not_le hfits
      have hroom' := hroom l b r rfl hstart hused hmax hlt
      rw [← hstart] at hquiet
      obtain ⟨q, t, bs', fl', hrun, hgt, hkept, hspares, hdone, -, hbounds, hcount⟩ :=
        equiv_realloc_good hg hused hn hmax hlt hroom' hquiet
      rw [hstart] at hrun
      have hspares' : Spares {k | get_payload_start k ∈ (Call.realloc e.1 n).args} s (l ++ b :: r) t bs' := by
        refine hspares.mono ?_
        rintro _ rfl
        exact List.mem_singleton.mpr hstart
      have hothers : LiveIn bs' (live.filter (·.1 ≠ e.1)) := by
        refine hlive.spares hspares' List.filter_sublist fun d hd k hk hmem => ?_
        exact filter_kept live e.1 d hd k hk (List.mem_singleton.mp hmem)
      refine ⟨q, t, bs', fl', hrun, ⟨hgt, hkept, hspares', ?_, hbounds⟩, hcount⟩
      rw [hrelive]
      by_cases hq : q = 0
      · rw [if_pos hq]
        refine ⟨fun d hd => ?_, hlive.nodup⟩
        by_cases hde : d.1 = e.1
        · obtain ⟨b', hb'⟩ := hdone.refused hq
          obtain rfl := List.inj_on_of_nodup_map hlive.nodup hd he hde
          rw [hstart] at hb'
          exact ⟨b', hb'.mono hsize⟩
        · exact hothers.served d (List.mem_filter.mpr ⟨hd, by simpa using hde⟩)
      · rw [if_neg hq]
        obtain ⟨b', hb'⟩ := hdone.served hq
        refine hothers.cons hb' fun hmem => ?_
        obtain ⟨d, hd, heq⟩ := List.mem_map.mp hmem
        rcases hdone.fresh hq with hsame | hfresh
        · rw [hsame, hstart] at heq
          exact hself (List.mem_map.mpr ⟨d, hd, heq⟩)
        · obtain ⟨c, hc, hcused, -, hcstart⟩ := hlive.served d (List.mem_filter.mp hd).1
          exact hfresh c hc hcused (hcstart.trans heq)
  · refine ⟨0, s, _, fl, ?_, .refl hg ?_, .of_stats rfl _⟩
    · rw [equiv_realloc, if_neg hp, if_neg hn.ne', if_pos (Nat.lt_of_not_le hmax)]
    · rw [hrelive, if_pos rfl]
      exact hlive

end Answers

/-- A heap with its live allocations. -/
structure Session where
  heap : Heap
  live : List (ℕ × ℕ)

/-- A call, or a write of a caller. -/
inductive Event
  | call (c : Call)
  | write (a : ℕ) (v : BitVec 8)

namespace Session

/-- The size of the block that a pointer returned by the allocator points into. -/
def payload_size (S : Session) (p : ℕ) : ℕ := get_size S.heap (header_of_payload p)

def Valid (S : Session) : Event → Prop
  | .call c => c.Valid S.live
  | .write a _ => ∃ e ∈ S.live, e.1 ≤ a ∧ a < e.1 + S.payload_size e.1

def step (S : Session) : Event → Outcome Session
  | .call c => do
    let (q, s) ← c.run S.heap
    .ok ⟨s, c.relive q S.live⟩
  | .write a v => .ok { S with heap := { S.heap with mem := Function.update S.heap.mem a v } }

/-- The sessions that valid events lead to, each of them meeting a condition. -/
inductive Reaches (ok : Session → Event → Session → Prop) (S₀ : Session) : Session → Prop
  | start : Reaches ok S₀ S₀
  | step {S T : Session} {e : Event} (h : Reaches ok S₀ S) (hvalid : S.Valid e)
      (hstep : S.step e = .ok T) (hok : ok S e T) : Reaches ok S₀ T

instance (live : List (ℕ × ℕ)) (c : Call) : Decidable (c.Valid live) :=
  inferInstanceAs (Decidable (∀ p ∈ c.args, p ≠ 0 → p ∈ live.map Prod.fst))

instance (S : Session) : DecidablePred S.Valid
  | .call c => inferInstanceAs (Decidable (c.Valid S.live))
  | .write a _ => inferInstanceAs (Decidable (∃ e ∈ S.live, e.1 ≤ a ∧ a < e.1 + S.payload_size e.1))

/-- The session that a list of events leads to, none if one of them is not valid or does not
meet the condition. -/
def replay (ok : Session → Event → Session → Prop) [∀ S e T, Decidable (ok S e T)] :
    List Event → Session → Option Session
  | [], S => some S
  | e :: es, S =>
    match S.step e with
    | .ok T => if S.Valid e ∧ ok S e T then replay ok es T else none
    | .error _ => none

theorem Reaches.replay {ok : Session → Event → Session → Prop} [∀ S e T, Decidable (ok S e T)]
    {S₀ S T : Session} {es : List Event} (hS : Reaches ok S₀ S)
    (hrun : Session.replay ok es S = some T) : Reaches ok S₀ T := by
  induction es generalizing S with
  | nil =>
    cases hrun
    exact hS
  | cons e es ih =>
    rw [Session.replay] at hrun
    split at hrun
    · rename_i U hstep
      split at hrun
      · rename_i hcond
        exact ih (hS.step hcond.1 hstep hcond.2) hrun
      · cases hrun
    · cases hrun

/-- No call of `remove_free_block` has left `first_free` NULL. -/
def Quiet (_ : Session) (_ : Event) (T : Session) : Prop := T.heap.emptied = false

instance (S : Session) (e : Event) (T : Session) : Decidable (Quiet S e T) :=
  inferInstanceAs (Decidable (T.heap.emptied = false))

/-- Where the metadata of a block ends, and for a free block its links. -/
def header_end (S : Session) (h : ℕ) : ℕ :=
  h + if get_status S.heap h = STATUS_FREE then header_size else metadata_size

/-- The live allocations lie in the heap, apart from each other and from all block headers,
and are as long as requested. -/
structure Separated (S : Session) : Prop where
  disjoint : S.live.Pairwise fun e e' =>
    e.1 + S.payload_size e.1 ≤ e'.1 ∨ e'.1 + S.payload_size e'.1 ≤ e.1
  inside : ∀ e ∈ S.live, S.heap.base ≤ e.1 ∧ e.1 + S.payload_size e.1 ≤ S.heap.base + S.heap.size
  headers : ∀ e ∈ S.live, ∀ h ∈ blocks S.heap,
    e.1 + S.payload_size e.1 ≤ h ∨ S.header_end h ≤ e.1
  requested : ∀ e ∈ S.live, e.2 ≤ S.payload_size e.1

/-- The session is well formed. -/
structure Sound (S : Session) (bs : List Block) (fl : List ℕ) : Prop where
  good : Good S.heap bs fl
  live : LiveIn bs S.live

variable {S T : Session} {bs : List Block} {fl : List ℕ} {b : Block} {n q : ℕ}

theorem payload_size_eq (hg : Good S.heap bs fl) (hb : Serves bs n q b) : S.payload_size q = b.size ∧
    b.start + metadata_size = q ∧ q + S.payload_size q = b.stop := by
  have hstart := hb.start
  have hsize : S.payload_size q = b.size := by
    rw [payload_size, ← hstart, show header_of_payload (get_payload_start b.start) = b.start from
      Nat.add_sub_cancel _ _, hg.laid.get_size hb.mem]
  refine ⟨hsize, hstart, ?_⟩
  rw [hsize, ← hstart]
  rfl

theorem Sound.separated (h : S.Sound bs fl) : S.Separated := by
  obtain ⟨hg, hlive⟩ := h
  constructor
  · have hne := List.pairwise_map.mp hlive.nodup
    refine hne.imp_of_mem fun {e e'} he he' hne => ?_
    obtain ⟨b, hb⟩ := hlive.served e he
    obtain ⟨c, hc⟩ := hlive.served e' he'
    obtain ⟨-, hbstart, hbstop⟩ := payload_size_eq hg hb
    obtain ⟨-, hcstart, hcstop⟩ := payload_size_eq hg hc
    rcases hg.laid.tiles.separate hb.mem hc.mem with rfl | hlt | hlt
    · exact absurd (hbstart.symm.trans hcstart) hne
    · omega
    · omega
  · intro e he
    obtain ⟨b, hb⟩ := hlive.served e he
    obtain ⟨-, hstart, hstop⟩ := payload_size_eq hg hb
    have hbounds := hg.laid.tiles.bounds hb.mem
    omega
  · intro e he h hh
    rw [hg.blocks] at hh
    obtain ⟨c, hc, rfl⟩ := List.mem_map.mp hh
    obtain ⟨b, hb⟩ := hlive.served e he
    obtain ⟨-, hstart, hstop⟩ := payload_size_eq hg hb
    have hheader := Block.header_le (hg.laid.sizes c hc).1
    have hend : S.header_end c.start = c.start + if c.free then header_size else metadata_size := by
      rw [header_end, hg.laid.get_status hc, Block.status]
      cases c.free <;> rfl
    rw [hend]
    simp only [metadata_size, header_size] at *
    rcases hg.laid.tiles.separate hb.mem hc with rfl | hlt | hlt
    · right
      rw [hb.used]
      simp [hstart.le]
    · left
      omega
    · right
      split <;> omega
  · intro e he
    obtain ⟨b, hb⟩ := hlive.served e he
    rw [(payload_size_eq hg hb).1]
    exact hb.size

/-- A write into a payload changes no block. -/
theorem Sound.write (h : S.Sound bs fl) {a : ℕ} {v : BitVec 8} (hvalid : S.Valid (.write a v)) :
    Sound { S with heap := { S.heap with mem := Function.update S.heap.mem a v } } bs fl := by
  obtain ⟨e, he, hle, hlt⟩ := hvalid
  obtain ⟨b, hb⟩ := h.live.served e he
  obtain ⟨-, hstart, hstop⟩ := payload_size_eq h.good hb
  rw [hstop] at hlt
  have hout : ∀ x, x < get_payload_start b.start ∨ b.stop ≤ x →
      Function.update S.heap.mem a v x = S.heap.mem x := by
    intro x hx
    rw [hb.start] at hx
    have hne : x ≠ a := by omega
    exact Function.update_of_ne hne _ _
  have hg := h.good.payload (t := { S.heap with mem := Function.update S.heap.mem a v }) hb.mem hb.used
    ⟨⟨rfl, rfl⟩, rfl⟩ hout
  exact ⟨hg.1, h.live⟩

/-- The free list is not empty where a call appends to it or searches it. -/
def Roomy (bs : List Block) (fl : List ℕ) (quiet : Prop) : Call → Prop
  | .malloc n => 0 < n → n ≤ MAX_REQUEST_SIZE → fl ≠ []
  | .free p => p ≠ 0 → fl ≠ []
  | .realloc p n =>
    if p = 0 then 0 < n → n ≤ MAX_REQUEST_SIZE → fl ≠ []
    else if n = 0 then fl ≠ []
    else ∀ l b r, bs = l ++ b :: r → get_payload_start b.start = p → b.free = false →
      n ≤ MAX_REQUEST_SIZE → b.size < roundup n ALIGNMENT → Room l b r fl n quiet

theorem Sound.call (h : S.Sound bs fl) {c : Call} (hvalid : c.Valid S.live) {quiet : Prop}
    (hroomy : Roomy bs fl quiet c)
    (hquiet : quiet → (final Prod.snd (c.run S.heap)).emptied = false) : ∃ q t bs' fl',
      c.run S.heap = .ok (q, t) ∧ Answer S.heap bs fl S.live c q t bs' fl' ∧
      Accounts S.heap bs t bs' := by
  obtain ⟨hg, hlive⟩ := h
  have hfree : ∀ p, (p ≠ 0 → p ∈ S.live.map Prod.fst) → (p ≠ 0 → fl ≠ []) → ∃ t bs' fl',
      equiv_free p S.heap = .ok t ∧ ∀ c : Call, c.args = [p] →
        c.relive 0 S.live = S.live.filter (·.1 ≠ p) →
        Answer S.heap bs fl S.live c 0 t bs' fl' ∧ Accounts S.heap bs t bs' := by
    intro p hp hne
    obtain ⟨t, bs', fl', hrun, hgt, hfl', hspares, hlive', hbounds, hcount⟩ :=
      free_answer hg hlive hp hne
    refine ⟨t, bs', fl', hrun, fun c hargs hrelive => ⟨⟨hgt, fun _ => hfl', ?_, ?_, hbounds⟩, hcount⟩⟩
    · rw [hargs]
      exact hspares.mono fun k hk => List.mem_singleton.mpr hk
    · rw [hrelive]
      exact hlive'
  cases c with
  | malloc n => exact malloc_answer hg hlive hroomy
  | free p =>
    obtain ⟨t, bs', fl', hrun, hanswer⟩ := hfree p (hvalid p List.mem_cons_self) hroomy
    refine ⟨0, t, bs', fl', ?_, hanswer _ rfl rfl⟩
    rw [Call.run, hrun]
    rfl
  | realloc p n =>
    by_cases hp : p = 0
    · subst hp
      obtain ⟨q, t, bs', fl', hrun, hanswer, hcount⟩ := malloc_answer (n := n) hg hlive hroomy
      refine ⟨q, t, bs', fl', hrun, ⟨hanswer.good, hanswer.kept,
        hanswer.spares.mono fun _ hk => absurd hk List.not_mem_nil, ?_, hanswer.bounds⟩, hcount⟩
      have hall : S.live.filter (·.1 ≠ 0) = S.live := by
        refine List.filter_eq_self.mpr fun e he => ?_
        obtain ⟨b, hb⟩ := hlive.served e he
        have hne := payload_ne_zero b.start
        rw [hb.start] at hne
        simpa using hne
      rw [Call.relive, if_neg fun h => h.1 rfl, hall]
      exact hanswer.live
    · rw [Roomy, if_neg hp] at hroomy
      by_cases hn : n = 0
      · subst hn
        rw [if_pos rfl] at hroomy
        obtain ⟨t, bs', fl', hrun, hanswer⟩ := hfree p (hvalid p List.mem_cons_self) fun _ => hroomy
        refine ⟨0, t, bs', fl', ?_, hanswer _ rfl (if_pos ⟨hp, rfl⟩)⟩
        rw [Call.run, equiv_realloc, if_neg hp, if_pos rfl, hrun]
        rfl
      · rw [if_neg hn] at hroomy
        exact realloc_answer hg hlive hp (hvalid p List.mem_cons_self hp) (Nat.pos_of_ne_zero hn)
          hroomy hquiet

/-- A valid call that leaves the free list filled had room. -/
theorem Sound.roomy (h : S.Sound bs fl) (hne : fl ≠ []) {c : Call}
    (hquiet : (final Prod.snd (c.run S.heap)).emptied = false) : Roomy bs fl True c := by
  cases c with
  | malloc n => exact fun _ _ => hne
  | free p => exact fun _ => hne
  | realloc p n =>
    rw [Roomy]
    split
    · exact fun _ _ => hne
    · split
      · exact hne
      · rename_i hn
        rintro l b r rfl rfl _ hmax hsize
        exact room_of_quiet h.good hne (Nat.pos_of_ne_zero hn) hmax hsize hquiet

/-- Where calls that meet the condition lead to well-formed sessions, all sessions are. The free
list may have a property of its own. -/
theorem reaches_sound {ok : Session → Event → Session → Prop} (listed : List ℕ → Prop)
    {heap_start heap_size : ℕ} {mem : Bytes} {s : Heap}
    (hinit : equiv_malloc_init heap_start heap_size mem = some s) (hstart : 0 < heap_start)
    (hend : heap_start + heap_size < 2 ^ 32) (heven : heap_size % 8 = 0) (hlisted : listed [heap_start])
    (hcall : ∀ {S : Session} {bs fl} {c : Call} {q t}, S.Sound bs fl → listed fl → c.Valid S.live →
      c.run S.heap = .ok (q, t) → ok S (.call c) ⟨t, c.relive q S.live⟩ →
      ∃ bs' fl', (Answer S.heap bs fl S.live c q t bs' fl' ∧ Accounts S.heap bs t bs') ∧ listed fl')
    (hS : Reaches ok ⟨s, []⟩ S) : ∃ bs fl, S.Sound bs fl ∧ listed fl ∧
      (S.heap.base = heap_start ∧ S.heap.size = heap_size) ∧ Counted S.heap bs := by
  induction hS with
  | start =>
    obtain ⟨hg, -, hbase, hsize⟩ := equiv_malloc_init_good hinit hstart hend heven
    exact ⟨_, _, ⟨hg, ⟨fun e he => absurd he List.not_mem_nil, List.nodup_nil⟩⟩, hlisted,
      ⟨hbase, hsize⟩, equiv_malloc_init_counted hinit⟩
  | @step S T e _ hvalid hstep hok ih =>
    obtain ⟨bs, fl, hsound, hfl, hbounds, hcount⟩ := ih
    cases e with
    | write a v =>
      cases hstep
      exact ⟨bs, fl, hsound.write hvalid, hfl, hbounds, hcount⟩
    | call c =>
      obtain ⟨⟨q, t⟩, hrun, hT⟩ := bind_ok_iff.mp hstep
      cases hT
      obtain ⟨bs', fl', ⟨hanswer, haccount⟩, hfl'⟩ := hcall hsound hfl hvalid hrun hok
      exact ⟨bs', fl', ⟨hanswer.good, hanswer.live⟩, hfl',
        ⟨hanswer.bounds.1.trans hbounds.1, hanswer.bounds.2.trans hbounds.2⟩, haccount hcount⟩

/-- Sessions that never empty the free list are well formed. -/
theorem reaches_quiet {heap_start heap_size : ℕ} {mem : Bytes} {s : Heap}
    (hinit : equiv_malloc_init heap_start heap_size mem = some s) (hstart : 0 < heap_start)
    (hend : heap_start + heap_size < 2 ^ 32) (heven : heap_size % 8 = 0)
    (hS : Reaches Quiet ⟨s, []⟩ S) : ∃ bs fl, S.Sound bs fl ∧ fl ≠ [] ∧
      (S.heap.base = heap_start ∧ S.heap.size = heap_size) ∧ Counted S.heap bs := by
  refine reaches_sound (· ≠ []) hinit hstart hend heven (List.cons_ne_nil heap_start []) ?_ hS
  intro S bs fl c q t hsound hne hvalid hrun hok
  have hquiet : (final Prod.snd (c.run S.heap)).emptied = false := by
    rw [hrun]
    exact hok
  obtain ⟨q', t', bs', fl', hrun', hanswer⟩ :=
    hsound.call hvalid (hsound.roomy hne hquiet) fun _ => hquiet
  cases hrun.symm.trans hrun'
  exact ⟨bs', fl', hanswer, hanswer.1.kept hok hne⟩

/-- Calls leave the payloads of other allocations alone. -/
theorem Sound.unchanged (h : S.Sound bs fl) {c : Call} {t : Heap} {bs' : List Block} {fl' : List ℕ}
    (ha : Answer S.heap bs fl S.live c q t bs' fl') : ∀ e ∈ S.live, e.1 ∉ c.args →
      ∀ x, e.1 ≤ x → x < e.1 + S.payload_size e.1 → t.mem x = S.heap.mem x := by
  intro e he hnot x hx hx'
  obtain ⟨b, hb⟩ := h.live.served e he
  obtain ⟨-, hstart, hstop⟩ := payload_size_eq h.good hb
  refine (ha.spares b hb.mem hb.used ?_).2 x (by omega) (by omega)
  intro hmem
  rw [Set.mem_ofPred_eq, hb.start] at hmem
  exact hnot hmem

/-- As long as no `remove_free_block` leaves `first_free` NULL, the live allocations are
separated, and every valid call returns and leaves those alone that it is not given. -/
theorem quiet_sessions_separated {heap_start heap_size : ℕ} {mem : Bytes} {s : Heap}
    (hinit : equiv_malloc_init heap_start heap_size mem = some s) (hstart : 0 < heap_start)
    (hend : heap_start + heap_size < 2 ^ 32) (heven : heap_size % 8 = 0)
    (hS : Reaches Quiet ⟨s, []⟩ S) :
    S.Separated ∧ (S.heap.base = heap_start ∧ S.heap.size = heap_size) ∧
      ∀ c : Call, c.Valid S.live → (final Prod.snd (c.run S.heap)).emptied = false →
        ∃ q t, c.run S.heap = .ok (q, t) ∧ ∀ e ∈ S.live, e.1 ∉ c.args →
          ∀ x, e.1 ≤ x → x < e.1 + S.payload_size e.1 → t.mem x = S.heap.mem x := by
  obtain ⟨bs, fl, hsound, hne, hbounds, -⟩ := reaches_quiet hinit hstart hend heven hS
  refine ⟨hsound.separated, hbounds, fun c hvalid hquiet => ?_⟩
  obtain ⟨q, t, bs', fl', hrun, hanswer, -⟩ :=
    hsound.call hvalid (hsound.roomy hne hquiet) fun _ => hquiet
  exact ⟨q, t, hrun, hsound.unchanged hanswer⟩

/-- Two allocations of 16 bytes, and a free of the first. -/
theorem quiet_sessions_separated_two : ∃ S : Session, S.live = [(88, 16), (68, 16)] ∧ S.Separated ∧
    ∃ q t, (Call.free 68).run S.heap = .ok (q, t) ∧ ∀ x, 88 ≤ x → x < 104 → t.mem x = S.heap.mem x := by
  have hrun : ((equiv_malloc_init 64 128 fun _ => 0).bind fun s =>
      (replay Quiet [.call (.malloc 16), .write 70 9, .call (.malloc 16)] ⟨s, []⟩).map fun S =>
        (S.live, S.payload_size 88, decide ((Call.free 68).Valid S.live),
          (final Prod.snd ((Call.free 68).run S.heap)).emptied)) =
      some ([(88, 16), (68, 16)], 16, true, false) := by
    decide +kernel
  obtain ⟨s, hinit, hrun⟩ := Option.bind_eq_some_iff.mp hrun
  obtain ⟨S, hreplay, heq⟩ := Option.map_eq_some_iff.mp hrun
  obtain ⟨hlive, hsize, hvalid, hquiet⟩ : S.live = [(88, 16), (68, 16)] ∧ S.payload_size 88 = 16 ∧
      decide ((Call.free 68).Valid S.live) = true ∧
      (final Prod.snd ((Call.free 68).run S.heap)).emptied = false := by
    simpa using heq
  obtain ⟨hsep, -, hcalls⟩ := quiet_sessions_separated hinit (by decide) (by decide) (by decide)
    (Reaches.start.replay hreplay)
  obtain ⟨q, t, hfree, hsame⟩ := hcalls _ (of_decide_eq_true hvalid) hquiet
  refine ⟨S, hlive, hsep, q, t, hfree, fun x hx hx' => hsame (88, 16) ?_ ?_ x hx ?_⟩
  · rw [hlive]
    exact List.mem_cons_self
  · decide
  · rw [hsize]
    exact hx'

end Session

end EquivChecker.Malloc
