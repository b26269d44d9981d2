import EquivChecker.FreeListExactness

/-!
# Which headers a call reads

The headers that the allocator reads are listed along its functions. Supplied calls read
only headers of blocks; a search of an empty free list reads through a null pointer.
-/

namespace EquivChecker.Malloc

open Heap Malloc.Field

/-- The reads of `coalesce_loop`. -/
def coalesce_reads (base : ℕ) : ℕ → ℕ → Heap → List ℕ
  | 0, _, _ => []
  | fuel + 1, next, s =>
    next :: match next_block s next with
      | none => []
      | some next =>
        next ::
          if get_status s next = STATUS_FREE then
            let s := remove_free_block next
              (set_size base (get_size s base + (get_size s next + metadata_size)) s)
            next :: base :: base :: next :: coalesce_reads base fuel next s
          else []

/-- The reads of `trim_block_if_possible`. -/
def trim_reads (header needs : ℕ) (s : Heap) : List ℕ :=
  header ::
    if metadata_size + MINIMUM_PAYLOAD ≤ get_size s header - needs then
      let new_block := get_payload_end (set_size header needs s) header
      [header, header, new_block, new_block]
    else []

/-- The reads of `allocate_block`. -/
def allocate_reads (header needs : ℕ) (s : Heap) : List ℕ :=
  header :: header :: trim_reads header needs (set_status header STATUS_USED s) ++ [header]

/-- The reads of `find_best`; nothing is known about what follows a read through a null pointer. -/
def find_reads (s : Heap) : ℕ → ℕ → List ℕ
  | 0, _ => []
  | fuel + 1, current_block =>
    current_block ::
      if current_block = 0 then []
      else match next_free_block s current_block with
        | none => []
        | some next => find_reads s fuel next

/-- The reads of `equiv_malloc`. -/
def malloc_reads (requested_size : ℕ) (s : Heap) : List ℕ :=
  if requested_size = 0 ∨ MAX_REQUEST_SIZE < requested_size then []
  else
    find_reads s s.size s.first_free ++
      match find_best s (needed requested_size) s.size s.first_free 0 SIZE_MAX with
      | .ok best_block =>
        if best_block ≠ 0 then allocate_reads best_block (needed requested_size) s else []
      | .error _ => []

/-- The reads of `equiv_free`. -/
def free_reads (ptr : ℕ) (s : Heap) : List ℕ :=
  if ptr = 0 then []
  else
    let base := header_of_payload ptr
    let s := append_free_block base (set_status base STATUS_FREE s)
    base :: base :: coalesce_reads base s.size base s

/-- The reads of `absorb_right`. -/
def absorb_reads (header : ℕ) (s : Heap) : List ℕ :=
  header :: match next_block s header with
    | none => []
    | some right =>
      right ::
        if get_status s right = STATUS_FREE then
          coalesce_reads right s.size right s ++ [right, right, header, right]
        else []

/-- The reads of `equiv_realloc`. -/
def realloc_reads (old_ptr new_size : ℕ) (s : Heap) : List ℕ :=
  if old_ptr = 0 then malloc_reads new_size s
  else if new_size = 0 then free_reads old_ptr s
  else
    let header := header_of_payload old_ptr
    if MAX_REQUEST_SIZE < new_size then []
    else
      let needs := roundup new_size ALIGNMENT
      let old_size := get_size s header
      header ::
        if needs ≤ old_size then []
        else absorb_reads header s ++
          match absorb_right header old_size s with
          | .error _ => []
          | .ok (additional_space, s) =>
            let old_size := old_size + additional_space
            if needs ≤ old_size then trim_reads header needs s
            else malloc_reads needs s ++
              match equiv_malloc needs s with
              | .error _ => []
              | .ok (new_block, s) =>
                if new_block = 0 then []
                else free_reads old_ptr { s with mem := s.mem.copy new_block old_ptr old_size }

/-- The headers that a call reads. -/
def Call.reads : Call → Heap → List ℕ
  | malloc requested_size, s => malloc_reads requested_size s
  | realloc old_ptr new_size, s => realloc_reads old_ptr new_size s
  | free ptr, s => free_reads ptr s

/-- A header with its links lies in the heap. -/
def Inside (s : Heap) (h : ℕ) : Prop := s.base ≤ h ∧ h + header_size ≤ s.base + s.size

variable {P : Set ℕ} {s t : Heap} {h n needs next fuel : ℕ} {fl : List ℕ} {bs l r : List Block} {b c : Block}

theorem Inside.congr (hst : SameBounds s t) (hh : Inside t h) : Inside s h := by
  rw [Inside, ← hst.1, ← hst.2]
  exact hh

theorem Laid.inside (hl : Laid P s bs) (hb : b ∈ bs) : Inside s b.start := by
  have hbounds := hl.tiles.bounds hb
  exact ⟨hbounds.1, (Block.header_le (hl.sizes b hb).1).trans hbounds.2⟩

theorem coalesce_reads_inside (hP : Sites P) (hl : Laid P s (l ++ b :: r)) (hc : Chain P s fl)
    (hb : b.start ∈ fl) (hfree : ∀ c ∈ r, c.free = true → c.start ∈ fl)
    (hend : get_payload_end s next = b.stop) (hnext : Inside s next) (hfuel : r.length < fuel) :
    ∀ h ∈ coalesce_reads b.start fuel next s, Inside s h := by
  induction r generalizing b s fl next fuel with
  | nil =>
    obtain ⟨fuel, rfl⟩ := Nat.exists_eq_succ_of_ne_zero (Nat.ne_of_gt hfuel)
    intro h hh
    rw [coalesce_reads, hl.next_block_of_end hend] at hh
    rw [List.mem_singleton.mp hh]
    exact hnext
  | cons c r ih =>
    obtain ⟨fuel, rfl⟩ := Nat.exists_eq_succ_of_ne_zero (Nat.ne_of_gt (Nat.zero_lt_of_lt hfuel))
    obtain ⟨hbmem, hcmem⟩ := merged_mem l r b c
    have hcin := hl.inside hcmem
    have hbin := hl.inside hbmem
    intro h hh
    rw [coalesce_reads, show next_block s next = some c.start from hl.next_block_of_end hend] at hh
    simp only [List.mem_cons] at hh
    rcases hh with rfl | rfl | hh
    · exact hnext
    · exact hcin
    split at hh
    · rename_i hstatus
      have hcf : c.free = true := (status_free_iff hl hcmem).mp hstatus
      obtain ⟨t, ht, hlt, hct, hend', -, -, hbase, hsize, -⟩ :=
        coalesce_step hP hl hc (hfree c List.mem_cons_self hcf)
      obtain ⟨hb₁, hfree₁, hstop⟩ := coalesce_listed hl hc.nodup hb hfree
      have hbounds : SameBounds s t := ⟨hbase, hsize⟩
      have hcin' : Inside t c.start := by
        rw [Inside, hbase, hsize]
        exact hcin
      rw [ht] at hh
      simp only [List.mem_cons] at hh
      rcases hh with rfl | rfl | rfl | rfl | hh
      · exact hcin
      · exact hbin
      · exact hbin
      · exact hcin
      · exact (ih hlt hct hb₁ hfree₁ (hend'.trans hstop) hcin' (Nat.lt_of_succ_lt_succ hfuel) h hh).congr
          hbounds
    · cases hh

theorem trim_reads_inside (hbase : 0 < s.base) (hl : Laid (starts (l ++ b :: r)) s (l ++ b :: r))
    (hneeds : MINIMUM_PAYLOAD ≤ needs ∧ needs % 2 = 0 ∧ needs ≤ b.size) :
    ∀ h ∈ trim_reads b.start needs s, Inside s h := by
  have hb : b ∈ l ++ b :: r := by simp
  have hself := hl.inside hb
  intro h hh
  rw [trim_reads, hl.get_size hb] at hh
  rcases List.mem_cons.mp hh with rfl | hh
  · exact hself
  split at hh
  · rename_i hsplit
    obtain ⟨-, hend, hl₂, -⟩ := split_laid hbase hl hneeds hsplit rfl rfl
    have hnew := hl₂.inside (b := ⟨b.start + metadata_size + needs, b.size - needs - metadata_size, true⟩)
      (by simp)
    have hset := hl.set_size_eq hb hneeds.2.1 (hneeds.2.2.trans_lt (hl.size_lt hb))
    rw [hset, hend] at hh
    simp only [List.mem_cons, List.not_mem_nil, or_false] at hh
    rcases hh with rfl | rfl | rfl | rfl
    · exact hself
    · exact hself
    · exact hnew
    · exact hnew
  · cases hh

theorem allocate_reads_inside (hg : Good s (l ++ b :: r) fl)
    (hneeds : MINIMUM_PAYLOAD ≤ needs ∧ needs % 2 = 0 ∧ needs ≤ b.size) :
    ∀ h ∈ allocate_reads b.start needs s, Inside s h := by
  have hb : b ∈ l ++ b :: r := by simp
  have hself := hg.laid.inside hb
  have hl₁ := hg.laid.set_free hg.sites false
  rw [← starts_set_free l r b false] at hl₁
  have hbase₁ : 0 < (s.store b.start metadata ({ b with free := false } : Block).word).base :=
    hg.base_pos
  have htrim := trim_reads_inside (b := { b with free := false }) hbase₁ hl₁ hneeds
  intro h hh
  rw [allocate_reads, show set_status b.start STATUS_USED s = _ from hg.laid.set_status_eq hb false] at hh
  simp only [List.cons_append, List.mem_cons, List.mem_append, List.not_mem_nil, or_false] at hh
  rcases hh with rfl | rfl | hh | rfl
  · exact hself
  · exact hself
  · exact (htrim h hh).congr ⟨rfl, rfl⟩
  · exact hself

theorem find_reads_eq {p : ℕ} (hlinks : Linked (s.load · next_free) (s.load · previous_free) p fl 0)
    (hpos : ∀ h ∈ fl, h ≠ 0) (hne : fl ≠ []) (hfuel : fl.length ≤ fuel) :
    find_reads s fuel (fl.headD 0) = fl := by
  induction fl generalizing p fuel with
  | nil => exact absurd rfl hne
  | cons h fl ih =>
    obtain ⟨fuel, rfl⟩ := Nat.exists_eq_succ_of_ne_zero (Nat.ne_of_gt (Nat.zero_lt_of_lt hfuel))
    obtain ⟨-, hnext, hrest⟩ := hlinks
    rw [List.headD_cons, find_reads, if_neg (hpos h List.mem_cons_self)]
    simp only [next_free_block, hnext]
    cases fl with
    | nil => rfl
    | cons k fl =>
      have hk : k ≠ 0 := hpos k (List.mem_cons_of_mem h List.mem_cons_self)
      rw [List.headD_cons, if_neg hk]
      exact congrArg (h :: ·) (ih hrest (fun x hx => hpos x (List.mem_cons_of_mem h hx))
        (List.cons_ne_nil k fl) (Nat.le_of_succ_le_succ hfuel))

/-- A search of the free list of a well-formed heap. -/
theorem Good.find_reads (hg : Good s bs fl) (hne : fl ≠ []) :
    find_reads s s.size s.first_free = fl := by
  rw [hg.chain.first]
  exact find_reads_eq hg.chain.links (fun h hh => hg.chain.ne_zero hg.sites hh) hne hg.length_le

theorem malloc_reads_inside (hg : Good s bs fl) (hne : 0 < n → n ≤ MAX_REQUEST_SIZE → fl ≠ []) :
    ∀ h ∈ malloc_reads n s, Inside s h := by
  intro h hh
  rw [malloc_reads] at hh
  split at hh
  · cases hh
  · rename_i hcond
    obtain ⟨hn, hmax⟩ : 0 < n ∧ n ≤ MAX_REQUEST_SIZE := by omega
    obtain ⟨hlow, heven, -, -⟩ := needed_spec hmax
    have hpos : 0 < needed n := by
      simp only [MINIMUM_PAYLOAD] at hlow
      omega
    rw [hg.find_reads (hne hn hmax)] at hh
    rcases List.mem_append.mp hh with hh | hh
    · obtain ⟨b, hb, rfl⟩ := hg.chain.sites h hh
      exact hg.laid.inside hb
    · rcases find_best_spec hg (hne hn hmax) hpos with ⟨hrun, -⟩ | ⟨b, hb, hrun, -, hle, -⟩
      · rw [hrun] at hh
        cases hh
      · obtain ⟨l, r, rfl⟩ := List.append_of_mem hb
        have hne0 : b.start ≠ 0 := (hg.sites.pos b.start (start_mem hb)).ne'
        rw [hrun] at hh
        simp only [if_pos hne0] at hh
        exact allocate_reads_inside hg ⟨hlow, heven, hle⟩ h hh

theorem free_reads_inside (hg : Good s (l ++ b :: r) fl) (hused : b.free = false) (hne : fl ≠ []) :
    ∀ h ∈ free_reads (get_payload_start b.start) s, Inside s h := by
  have hself := hg.laid.inside (b := b) (by simp)
  have hptr : get_payload_start b.start ≠ 0 := by simp [get_payload_start, metadata_size]
  have hheader : header_of_payload (get_payload_start b.start) = b.start := Nat.add_sub_cancel _ _
  obtain ⟨t, ht, hgt, -, -, hbounds, -⟩ := append_freed hg hused hne
  have hmem : ({ b with free := true } : Block) ∈ l ++ { b with free := true } :: r := by simp
  have hfree : ∀ c ∈ r, c.free = true → c.start ∈ b.start :: fl := fun c hc hcf =>
    (hgt.exact c (List.mem_append_right _ (List.mem_cons_of_mem _ hc))).mpr hcf
  have hlen := hgt.laid.tiles.length_le
  rw [List.length_append, List.length_cons] at hlen
  intro h hh
  rw [free_reads, if_neg hptr, hheader] at hh
  simp only [ht, List.mem_cons] at hh
  rcases hh with rfl | rfl | hh
  · exact hself
  · exact hself
  · exact (coalesce_reads_inside hgt.sites hgt.laid hgt.chain List.mem_cons_self hfree
      (hgt.laid.get_payload_end hmem) (hgt.laid.inside hmem) (by omega) h hh).congr hbounds

theorem absorb_reads_inside (hg : Good s (l ++ b :: r) fl) :
    ∀ h ∈ absorb_reads b.start s, Inside s h := by
  have hb : b ∈ l ++ b :: r := by simp
  have hself := hg.laid.inside hb
  intro h hh
  rw [absorb_reads, hg.laid.next_block_of_end (hg.laid.get_payload_end hb)] at hh
  rcases List.mem_cons.mp hh with rfl | hh
  · exact hself
  cases r with
  | nil => cases hh
  | cons c r =>
    have hc : c ∈ l ++ b :: c :: r := by simp
    have hcin := hg.laid.inside hc
    simp only [List.head?_cons, Option.map_some, List.mem_cons] at hh
    rcases hh with rfl | hh
    · exact hcin
    split at hh
    · rename_i hstatus
      have hlaid : Laid (starts (l ++ b :: c :: r)) s ((l ++ [b]) ++ c :: r) := by
        rw [List.append_assoc]
        exact hg.laid
      have hcfl : c.start ∈ fl := (hg.exact c hc).mpr ((status_free_iff hg.laid hc).mp hstatus)
      have hfree : ∀ d ∈ r, d.free = true → d.start ∈ fl := fun d hd hdf =>
        (hg.exact d (by simp [hd])).mpr hdf
      have hlen := hg.laid.tiles.length_le
      rw [List.length_append, List.length_cons, List.length_cons] at hlen
      rcases List.mem_append.mp hh with hh | hh
      · exact coalesce_reads_inside hg.sites hlaid hg.chain hcfl hfree (hg.laid.get_payload_end hc) hcin
          (by omega) h hh
      · simp only [List.mem_cons, List.not_mem_nil, or_false] at hh
        rcases hh with rfl | rfl | rfl | rfl
        · exact hcin
        · exact hcin
        · exact hself
        · exact hcin
    · cases hh

/-- The reads after the free blocks to the right have been absorbed: the block is trimmed, or moved. -/
theorem moved_reads_inside (hg : Good s bs fl) (hb : b ∈ bs) (hused : b.free = false) (hne : fl ≠ [])
    (hn : 0 < needs) (hmax : needs ≤ MAX_REQUEST_SIZE) (hsize : b.size ≤ needs)
    (hleft : ∀ c ∈ bs, c.free = true → needed needs ≤ c.size →
      spare c (needed needs) ++ fl.erase c.start ≠ []) :
    ∀ h ∈ malloc_reads needs s ++
      match equiv_malloc needs s with
      | .error _ => []
      | .ok (new_block, s) =>
        if new_block = 0 then []
        else free_reads (get_payload_start b.start)
          { s with mem := s.mem.copy new_block (get_payload_start b.start) b.size }, Inside s h := by
  intro h hh
  rcases List.mem_append.mp hh with hh | hh
  · exact malloc_reads_inside hg (fun _ _ => hne) h hh
  rcases equiv_malloc_effect hg hne hn hmax with ⟨hnone, -⟩ | ⟨c, hc, hcf, hle, c', t, bs', hrun, hgt,
    hspares, hserves, -, -, hbounds, -⟩
  · rw [hnone] at hh
    cases hh
  · rw [hrun] at hh
    simp only [if_neg (payload_ne_zero c.start)] at hh
    obtain ⟨hb', -⟩ := hspares b hb hused (Set.notMem_empty _)
    obtain ⟨hg₁, -⟩ := hgt.copied (p := get_payload_start b.start) hserves
      (hsize.trans (needed_spec hmax).2.2.1)
    obtain ⟨l, r, rfl⟩ := List.append_of_mem hb'
    exact (free_reads_inside hg₁ hused (hleft c hc hcf hle) h hh).congr (hbounds.trans ⟨rfl, rfl⟩)

theorem realloc_reads_inside (hg : Good s (l ++ b :: r) fl) (hused : b.free = false) (hn : 0 < n)
    (hroom : n ≤ MAX_REQUEST_SIZE → b.size < roundup n ALIGNMENT → Room l b r fl n False) :
    ∀ h ∈ realloc_reads (get_payload_start b.start) n s, Inside s h := by
  have hb : b ∈ l ++ b :: r := by simp
  have hheader : header_of_payload (get_payload_start b.start) = b.start := Nat.add_sub_cancel _ _
  intro h hh
  rw [realloc_reads, if_neg (payload_ne_zero _), if_neg hn.ne', hheader] at hh
  split at hh
  · cases hh
  rename_i hmax
  replace hmax := Nat.not_lt.mp hmax
  simp only [hg.laid.get_size hb] at hh
  rcases List.mem_cons.mp hh with rfl | hh
  · exact hg.laid.inside hb
  split at hh
  · cases hh
  rename_i hfits
  replace hfits := Nat.lt_of_not_le hfits
  obtain ⟨hgrow, hmove, hleft⟩ := hroom hmax hfits
  obtain ⟨hlow, heven, -, hmax', hneeded⟩ := roundup_spec hmax (hg.laid.sizes b hb).1 hfits
  obtain ⟨t, habsorb, hgt, -, -, hbounds, -⟩ := absorb_right_spec hg
  rcases List.mem_append.mp hh with hh | hh
  · exact absorb_reads_inside hg h hh
  rw [habsorb] at hh
  simp only [show b.size + span (r.takeWhile Block.free) = (merged b (r.takeWhile Block.free)).size
    from rfl] at hh
  have hmused : (merged b (r.takeWhile Block.free)).free = false := hused
  have hmstart : (merged b (r.takeWhile Block.free)).start = b.start := rfl
  generalize merged b (r.takeWhile Block.free) = m at *
  refine Inside.congr hbounds ?_
  split at hh
  · rename_i hle
    rw [← hmstart] at hh
    exact trim_reads_inside hgt.base_pos hgt.laid ⟨hlow, heven, hle⟩ h hh
  · rename_i hlt
    replace hlt := Nat.lt_of_not_le hlt
    rw [← hmstart] at hh
    refine moved_reads_inside hgt (by simp) hmused (hmove hlt) (by omega) hmax' hlt.le ?_ h hh
    intro c hc hcf hcle
    rw [hneeded] at hcle ⊢
    exact (hleft hlt c hc hcf hcle).resolve_left id

namespace Session

variable {S : Session}

theorem Sound.reads_inside (hS : S.Sound bs fl) {c : Call} (hvalid : c.Valid S.live)
    (hc : c.Supplied S.heap) : ∀ h ∈ c.reads S.heap, Inside S.heap h := by
  have hroomy := supplied_roomy hS.good hc
  have hblock : ∀ p ∈ c.args, p ≠ 0 → ∃ l b r, bs = l ++ b :: r ∧ b.free = false ∧
      get_payload_start b.start = p := by
    intro p hp hp0
    obtain ⟨e, he, rfl⟩ := List.mem_map.mp (hvalid p hp hp0)
    obtain ⟨b, hb, hused, -, hstart⟩ := hS.live.served e he
    obtain ⟨l, r, rfl⟩ := List.append_of_mem hb
    exact ⟨l, b, r, rfl, hused, hstart⟩
  cases c with
  | malloc n => exact malloc_reads_inside hS.good hroomy
  | free p =>
    by_cases hp : p = 0
    · intro h hh
      rw [Call.reads, free_reads, if_pos hp] at hh
      cases hh
    · obtain ⟨l, b, r, rfl, hused, rfl⟩ := hblock p List.mem_cons_self hp
      exact free_reads_inside hS.good hused (hroomy hp)
  | realloc p n =>
    rw [Roomy] at hroomy
    by_cases hp : p = 0
    · rw [if_pos hp] at hroomy
      rw [Call.reads, realloc_reads, if_pos hp]
      exact malloc_reads_inside hS.good hroomy
    · rw [if_neg hp] at hroomy
      obtain ⟨l, b, r, rfl, hused, rfl⟩ := hblock p List.mem_cons_self hp
      by_cases hn : n = 0
      · rw [if_pos hn] at hroomy
        rw [Call.reads, realloc_reads, if_neg hp, if_pos hn]
        exact free_reads_inside hS.good hused hroomy
      · rw [if_neg hn] at hroomy
        exact realloc_reads_inside hS.good hused (Nat.pos_of_ne_zero hn)
          fun hmax hsize => hroomy l b r rfl rfl hused hmax hsize

/-- A search of the empty free list reads through a null pointer. -/
theorem malloc_reads_null (hn : 0 < n) (hmax : n ≤ MAX_REQUEST_SIZE) (hfirst : s.first_free = 0)
    (hsize : 0 < s.size) : 0 ∈ malloc_reads n s := by
  obtain ⟨fuel, hfuel⟩ := Nat.exists_eq_succ_of_ne_zero hsize.ne'
  rw [malloc_reads, if_neg (by omega), hfirst, hfuel, find_reads]
  simp

/-- As long as every call is supplied, every valid and supplied call reads only headers inside
the heap, and a malloc for which no free block is large enough returns NULL and leaves the
heap as it is. A malloc that is not supplied reads outside. -/
theorem supplied_sessions_inside {heap_start heap_size : ℕ} {mem : Bytes}
    (hinit : equiv_malloc_init heap_start heap_size mem = some s) (hstart : 0 < heap_start)
    (hend : heap_start + heap_size < 2 ^ 32) (heven : heap_size % 8 = 0)
    (hS : Reaches Supplied ⟨s, []⟩ S) :
    (∀ c : Call, c.Valid S.live → c.Supplied S.heap → ∀ h ∈ c.reads S.heap, Inside S.heap h) ∧
    (∀ n, (Call.malloc n).Supplied S.heap →
      (∀ h ∈ blocks S.heap, get_status S.heap h = STATUS_FREE → get_size S.heap h < needed n) →
      equiv_malloc n S.heap = .ok (0, S.heap)) ∧
    ∀ n, (∀ h ∈ (Call.malloc n).reads S.heap, Inside S.heap h) → (Call.malloc n).Supplied S.heap := by
  obtain ⟨bs, fl, hsound, hsize⟩ := reaches_supplied hinit hstart hend heven hS
  have hg := hsound.good
  refine ⟨fun c hvalid hc => hsound.reads_inside hvalid hc, fun n hn hsmall => ?_, fun n hreads => ?_⟩
  · by_cases hcond : n = 0 ∨ MAX_REQUEST_SIZE < n
    · exact equiv_malloc_refused S.heap hcond
    · have hne : fl ≠ [] := supplied_roomy hg hn (by omega) (by omega)
      rcases equiv_malloc_spec (n := n) hg hne (by omega) (by omega) with
        ⟨hrun, -⟩ | ⟨l, b, r, t, rfl, hfree, hle, -⟩
      · exact hrun
      · have hb : b ∈ l ++ b :: r := by simp
        have hlt := hsmall b.start (hg.blocks ▸ List.mem_map_of_mem hb)
          ((status_free_iff hg.laid hb).mpr hfree)
        rw [hg.laid.get_size hb] at hlt
        exact absurd hle (Nat.not_le.mpr hlt)
  · have hpos : 0 < S.heap.size := by
      have hmin := equiv_malloc_init_size hinit
      simp only [header_size, MINIMUM_PAYLOAD] at hmin
      omega
    by_contra hnot
    simp only [Call.Supplied, not_or, not_not] at hnot
    have hzero := hreads 0 (malloc_reads_null (by omega) (by omega) hnot.2.2 hpos)
    exact absurd hzero.1 (Nat.not_le.mpr hg.base_pos)

/-- Of three blocks the second is freed; the first may grow over it, and 100 bytes are refused. -/
theorem supplied_sessions_inside_grow : ∃ S : Session, S.live = [(108, 16), (68, 16)] ∧
    (∀ h ∈ (Call.realloc 68 24).reads S.heap, Inside S.heap h) ∧
    equiv_malloc 100 S.heap = .ok (0, S.heap) := by
  have hrun : ((equiv_malloc_init 64 128 fun _ => 0).bind fun s =>
      (replay Supplied [.call (.malloc 16), .call (.malloc 16), .call (.malloc 16),
        .call (.free 88)] ⟨s, []⟩).map fun S : Session =>
          (S.live, decide ((Call.realloc 68 24).Valid S.live ∧ (Call.realloc 68 24).Supplied S.heap ∧
            (Call.malloc 100).Supplied S.heap ∧ ∀ h ∈ blocks S.heap,
              get_status S.heap h = STATUS_FREE → get_size S.heap h < needed 100))) =
      some ([(108, 16), (68, 16)], true) := by
    decide +kernel
  obtain ⟨s, hinit, hrun⟩ := Option.bind_eq_some_iff.mp hrun
  obtain ⟨S, hreplay, heq⟩ := Option.map_eq_some_iff.mp hrun
  obtain ⟨hlive, hcalls⟩ := Prod.mk.inj heq
  obtain ⟨hvalid, hsupplied, hmalloc, hsmall⟩ := of_decide_eq_true hcalls
  obtain ⟨hinside, hrefused, -⟩ := supplied_sessions_inside hinit (by decide) (by decide) (by decide)
    (Reaches.start.replay hreplay)
  exact ⟨S, hlive, hinside _ hvalid hsupplied, hrefused 100 hmalloc hsmall⟩

/-- The only block is allocated, and another malloc is made. -/
theorem malloc_reads_outside : ∃ (s : Heap) (S : Session),
    equiv_malloc_init 64 32 (fun _ => 0) = some s ∧ Reaches (fun _ _ _ => True) ⟨s, []⟩ S ∧
      (∀ h ∈ blocks S.heap, get_status S.heap h ≠ STATUS_FREE) ∧
      0 ∈ (Call.malloc 16).reads S.heap ∧ ¬Inside S.heap 0 ∧
      ∃ fault, equiv_malloc 16 S.heap = .error (fault, S.heap) := by
  have hrun : ((equiv_malloc_init 64 32 fun _ => 0).bind fun s =>
      (replay (fun _ _ _ => True) [.call (.malloc 24)] ⟨s, []⟩).map fun S : Session =>
        decide ((∀ h ∈ blocks S.heap, get_status S.heap h ≠ STATUS_FREE) ∧
          S.heap.first_free = 0 ∧ S.heap.base = 64 ∧ 0 < S.heap.size)) = some true := by
    decide +kernel
  obtain ⟨s, hinit, hrun⟩ := Option.bind_eq_some_iff.mp hrun
  obtain ⟨S, hreplay, heq⟩ := Option.map_eq_some_iff.mp hrun
  obtain ⟨hused, hfirst, hbase, hsize⟩ := of_decide_eq_true heq
  refine ⟨s, S, hinit, Reaches.start.replay hreplay, hused,
    malloc_reads_null (by decide) (by decide) hfirst hsize, fun hin => ?_,
    equiv_malloc_null hfirst (by decide) (by decide)⟩
  have hle := hin.1
  rw [hbase] at hle
  exact absurd hle (by decide)

end Session

end EquivChecker.Malloc
