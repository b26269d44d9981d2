import EquivChecker.HeapBlocks

/-!
# What the calls of the allocator do

In a well-formed heap the blocks tile the heap and the free list holds exactly the free
ones. Each call leads to a well-formed heap again, and touches no used block but its
argument, as long as no block is appended to an empty free list.
-/

namespace EquivChecker.Malloc

open Heap Malloc.Field

/-- The heap is tiled by blocks, and its free list holds the free ones. -/
structure Good (s : Heap) (bs : List Block) (fl : List ℕ) : Prop where
  base_pos : 0 < s.base
  laid : Laid (starts bs) s bs
  chain : Chain (starts bs) s fl
  exact : ∀ b ∈ bs, b.start ∈ fl ↔ b.free = true

variable {s t : Heap} {needs n : ℕ} {fl l₁ : List ℕ} {bs l r : List Block} {b c : Block}

theorem Good.sites (hg : Good s bs fl) : Sites (starts bs) :=
  sites_starts hg.base_pos hg.laid.tiles hg.laid.high hg.laid.sizes

section Search

/-- The better of the best block so far and the current one, with its difference. -/
def better (s : Heap) (needs : ℕ) (best : ℕ × ℕ) (h : ℕ) : ℕ × ℕ :=
  if needs ≤ get_size s h ∧ get_size s h - needs < best.2 then (h, get_size s h - needs) else best

theorem find_best_eq {p fuel : ℕ} (best : ℕ × ℕ)
    (hlinks : Linked (s.load · next_free) (s.load · previous_free) p fl 0) (hpos : ∀ h ∈ fl, h ≠ 0)
    (hne : fl ≠ []) (hfuel : fl.length ≤ fuel) :
    find_best s needs fuel (fl.headD 0) best.1 best.2 = .ok (fl.foldl (better s needs) best).1 := by
  induction fl generalizing p fuel best with
  | nil => exact absurd rfl hne
  | cons h fl ih =>
    obtain ⟨fuel, rfl⟩ := Nat.exists_eq_succ_of_ne_zero (Nat.ne_of_gt (Nat.zero_lt_of_lt hfuel))
    obtain ⟨-, hnext, hrest⟩ := hlinks
    have hbetter : ((if needs ≤ get_size s h ∧ get_size s h - needs < best.2 then h else best.1),
        (if needs ≤ get_size s h ∧ get_size s h - needs < best.2 then get_size s h - needs
          else best.2)) = better s needs best h := by
      unfold better
      split <;> rfl
    have hfst := congrArg Prod.fst hbetter
    have hsnd := congrArg Prod.snd hbetter
    simp only at hfst hsnd
    rw [List.headD_cons, find_best, if_neg (hpos h List.mem_cons_self), List.foldl_cons]
    simp only [next_free_block, hnext, hfst, hsnd]
    cases fl with
    | nil => simp
    | cons k fl =>
      have hk : k ≠ 0 := hpos k (List.mem_cons_of_mem h List.mem_cons_self)
      rw [List.headD_cons, if_neg hk]
      exact ih _ hrest (fun x hx => hpos x (List.mem_cons_of_mem h hx)) (List.cons_ne_nil k fl)
        (Nat.le_of_succ_le_succ hfuel)

/-- The search ends with a block of least size among those that are large enough. -/
theorem foldl_better (best : ℕ × ℕ) :
    (fl.foldl (better s needs) best = best ∧
      ∀ h ∈ fl, needs ≤ get_size s h → best.2 ≤ get_size s h - needs) ∨
    ∃ h ∈ fl, fl.foldl (better s needs) best = (h, get_size s h - needs) ∧ needs ≤ get_size s h ∧
      get_size s h - needs < best.2 ∧ ∀ k ∈ fl, needs ≤ get_size s k → get_size s h ≤ get_size s k := by
  induction fl generalizing best with
  | nil => exact .inl ⟨rfl, fun h hh => by cases hh⟩
  | cons h fl ih =>
    rw [List.foldl_cons]
    by_cases hh : needs ≤ get_size s h ∧ get_size s h - needs < best.2
    · have hbetter : better s needs best h = (h, get_size s h - needs) := if_pos hh
      rw [hbetter]
      right
      rcases ih (h, get_size s h - needs) with ⟨heq, hmin⟩ | ⟨k, hk, heq, hneeds, hlt, hmin⟩
      · refine ⟨h, List.mem_cons_self, heq, hh.1, hh.2, fun k hk hkn => ?_⟩
        rcases List.mem_cons.mp hk with rfl | hk
        · exact le_refl _
        · have hle := hmin k hk hkn
          omega
      · refine ⟨k, List.mem_cons_of_mem h hk, heq, hneeds, hlt.trans hh.2, fun x hx hxn => ?_⟩
        rcases List.mem_cons.mp hx with rfl | hx
        · omega
        · exact hmin x hx hxn
    · have hbetter : better s needs best h = best := if_neg hh
      rw [hbetter]
      rcases ih best with ⟨heq, hmin⟩ | ⟨k, hk, heq, hneeds, hlt, hmin⟩
      · refine .inl ⟨heq, fun k hk hkn => ?_⟩
        rcases List.mem_cons.mp hk with rfl | hk
        · omega
        · exact hmin k hk hkn
      · refine .inr ⟨k, List.mem_cons_of_mem h hk, heq, hneeds, hlt, fun x hx hxn => ?_⟩
        rcases List.mem_cons.mp hx with rfl | hx
        · omega
        · exact hmin x hx hxn

end Search

section Allocate

theorem Good.not_free (hg : Good s bs fl) (hb : b ∈ bs) (hfree : b.free = false) : b.start ∉ fl := by
  intro hmem
  have htrue := (hg.exact b hb).mp hmem
  rw [hfree] at htrue
  cases htrue

theorem exact_split (ht : Tiles s.base (l ++ b :: r) (s.base + s.size)) (hneeds : needs ≤ b.size)
    (hexact : ∀ d ∈ l ++ b :: r, d.start ∈ fl ↔ d.free = true) :
    ∀ d ∈ l ++ (split b needs ++ r), d.start ∈ spare b needs ++ fl ↔ d.free = true := by
  have hbmem : b ∈ l ++ b :: r := by simp
  have hold : ∀ d ∈ l ++ b :: r, d.start ∈ spare b needs ++ fl ↔ d.free = true := by
    intro d hd
    rw [List.mem_append, or_iff_right (start_notMem_spare ht hbmem hneeds hd)]
    exact hexact d hd
  intro d hd
  rcases List.mem_append.mp hd with hd | hd
  · exact hold d (List.mem_append_left _ hd)
  · rcases List.mem_append.mp hd with hd | hd
    · unfold split at hd
      split at hd
      · rename_i hsplit
        rcases List.mem_pair.mp hd with rfl | rfl
        · exact hold b hbmem
        · simp [spare, if_pos hsplit]
      · rw [List.mem_singleton.mp hd]
        exact hold b hbmem
    · exact hold d (List.mem_append_right _ (List.mem_cons_of_mem b hd))

theorem set_free_tiles (ht : Tiles s.base (l ++ b :: r) (s.base + s.size)) (free : Bool) :
    Tiles s.base (l ++ { b with free } :: r) (s.base + s.size) := by
  have ht' : Tiles s.base (l ++ ([b] ++ r)) (s.base + s.size) := ht
  exact ht'.replace (k := [{ b with free }]) fun lo hi h => h

/-- The status of one block is stored. -/
theorem Laid.set_free {P : Set ℕ} (hP : Sites P) (hl : Laid P s (l ++ b :: r)) (free : Bool) :
    Laid P (s.store b.start metadata ({ b with free } : Block).word) (l ++ { b with free } :: r) := by
  have hb : b ∈ l ++ b :: r := by simp
  exact Laid.store (d := { b with free }) hP hl (hl.sites b hb) (by simp) (hl.sizes b hb)
    (set_free_tiles hl.tiles free) (hl.tiles.replaced fun _ => id)

/-- The heap has the same bounds. -/
def SameBounds (s t : Heap) : Prop := t.base = s.base ∧ t.size = s.size

theorem SameBounds.trans {u : Heap} (hst : SameBounds s t) (htu : SameBounds t u) : SameBounds s u :=
  ⟨htu.1.trans hst.1, htu.2.trans hst.2⟩

theorem starts_set_free (l r : List Block) (b : Block) (free : Bool) :
    starts (l ++ { b with free } :: r) = starts (l ++ b :: r) := by
  ext h
  simp [starts, or_and_right, exists_or]

theorem mem_set_free {free : Bool} {d : Block} (hd : d ∈ l ++ { b with free } :: r) :
    d = { b with free } ∨ d ∈ l ++ r ∧ d ∈ l ++ b :: r := by
  rcases List.mem_append.mp hd with hd | hd
  · exact .inr ⟨List.mem_append_left _ hd, List.mem_append_left _ hd⟩
  · rcases List.mem_cons.mp hd with rfl | hd
    · exact .inl rfl
    · exact .inr ⟨List.mem_append_right _ hd, List.mem_append_right _ (List.mem_cons_of_mem b hd)⟩

/-- The status of a block changes, and it is counted elsewhere. -/
theorem accounts_set_free {free : Bool} (hst : t.stats = s.stats - b.stats +
    ({ b with free } : Block).stats) : Accounts s (l ++ b :: r) t (l ++ { b with free } :: r) := by
  refine Accounts.replace (m := [b]) (n := [{ b with free }]) ?_
  rw [hst, List.map_singleton, List.map_singleton, List.sum_singleton, List.sum_singleton]

theorem allocate_block_spec (hg : Good s (l ++ b :: r) fl) (hfree : b.free = true)
    (hneeds : MINIMUM_PAYLOAD ≤ needs ∧ needs % 2 = 0 ∧ needs ≤ b.size) :
    ∃ t, allocate_block b.start needs s = (get_payload_start b.start, t) ∧
      Good t (l ++ (split { b with free := false } needs ++ r)) (spare b needs ++ fl.erase b.start) ∧
      Only (within b ∪ {k | k ∈ fl}) s t ∧
      t.emptied = (s.emptied || spare b needs ++ fl.erase b.start == []) ∧ SameBounds s t ∧
      Accounts s (l ++ b :: r) t (l ++ (split { b with free := false } needs ++ r)) := by
  have hb : b ∈ l ++ b :: r := by simp
  have hP := hg.sites
  have hbfl : b.start ∈ fl := (hg.exact b hb).mpr hfree
  obtain ⟨b', hb'⟩ : ∃ b' : Block, b' = { b with free := false } := ⟨_, rfl⟩
  have hstart : b'.start = b.start := by rw [hb']
  have hset : set_status b.start STATUS_USED s = s.store b.start metadata b'.word := by
    rw [hb']
    exact hg.laid.set_status_eq hb false
  have hl₁ : Laid (starts (l ++ b :: r)) (s.store b.start metadata b'.word) (l ++ b' :: r) := by
    rw [hb']
    exact hg.laid.set_free hP false
  have hc₁ := hg.chain.store_metadata hP (start_mem hb) (hl₁.word_lt (b := b') (by simp))
  have honly₁ := only_store s (show b.start ∈ within b ∪ {k | k ∈ fl} from .inr hbfl) metadata b'.word
  generalize hs₁ : s.store b.start metadata b'.word = s₁ at *
  have hfields : s₁.base = s.base ∧ s₁.size = s.size ∧ s₁.emptied = s.emptied ∧
      s₁.stats = s.stats := by
    rw [← hs₁]
    exact ⟨rfl, rfl, rfl, rfl⟩
  have hstarts : starts (l ++ b :: r) = starts (l ++ b' :: r) := by
    rw [hb']
    exact (starts_set_free l r b false).symm
  have hexact₁ : ∀ d ∈ l ++ b' :: r, d.start ∈ fl.erase b.start ↔ d.free = true := by
    intro d hd
    rw [hg.chain.nodup.mem_erase_iff]
    rw [hb'] at hd
    rcases mem_set_free hd with rfl | ⟨hd, hd'⟩
    · simp
    · rw [and_iff_right (hg.laid.tiles.others hd)]
      exact hg.exact d hd'
  rw [hstarts] at hl₁ hc₁
  obtain ⟨s₂, hs₂⟩ : ∃ s₂, s₂ = { s₁ with
      blocks_free := s₁.blocks_free - 1
      blocks_used := s₁.blocks_used + 1
      bytes_free := s₁.bytes_free - BitVec.ofNat 32 (get_size s b.start)
      bytes_used := s₁.bytes_used + BitVec.ofNat 32 (get_size s b.start) } := ⟨_, rfl⟩
  have hl₂ : Laid (starts (l ++ b' :: r)) s₂ (l ++ b' :: r) := by
    rw [hs₂]
    exact hl₁.congr (fun _ _ => rfl) rfl rfl
  have hc₂ : Chain (starts (l ++ b' :: r)) s₂ fl := by
    rw [hs₂]
    exact hc₁.congr (fun _ _ _ _ => rfl) rfl
  have hfields₂ : s₂.base = s.base ∧ s₂.size = s.size ∧ s₂.emptied = s.emptied ∧ s₂.mem = s₁.mem := by
    rw [hs₂]
    exact ⟨hfields.1, hfields.2.1, hfields.2.2.1, rfl⟩
  have hcount₂ : Accounts s (l ++ b :: r) s₂ (l ++ b' :: r) := by
    rw [hb']
    refine accounts_set_free ?_
    rw [Block.stats_free hfree, Block.stats_used (b := { b with free := false }) rfl, ← hfields.2.2.2,
      hs₂, hg.laid.get_size hb]
    refine Prod.ext ?_ (Prod.ext ?_ (Prod.ext ?_ ?_))
    all_goals simp [Heap.stats]
  have hsize' : b'.size = b.size := by rw [hb']
  have hspare : spare b' needs = spare b needs := by rw [hb']; rfl
  obtain ⟨t₁, ht₁, hlt, hct, honlyt, hempt, hbt, hst, -, hcountt⟩ :=
    trim_spec (hfields₂.1 ▸ hg.base_pos) hl₂ hc₂ (hsize' ▸ hneeds) fun _ => List.ne_nil_of_mem hbfl
  have hsites := sites_starts (hbt.trans hfields₂.1 ▸ hg.base_pos) hlt.tiles hlt.high hlt.sizes
  have hnot : b.start ∉ spare b needs :=
    start_notMem_spare hg.laid.tiles hb hneeds.2.2 hb
  rw [hspare] at hct
  obtain ⟨hc₃, hmeta, honly₃, hemp₃⟩ := remove_mem hsites hct (List.mem_append_right _ hbfl)
  rw [List.erase_append_right _ hnot] at hc₃ hemp₃
  have hrun : allocate_block b.start needs s =
      (get_payload_start b.start, remove_free_block b.start t₁) := by
    rw [allocate_block, hset, ← ht₁, hstart, hs₂]
  obtain ⟨hb₃, hsz₃, -⟩ := remove_fields b.start t₁
  have hwithin : within b' = within b := by rw [hb']; rfl
  rw [← hb']
  refine ⟨_, hrun, ⟨?_, hlt.congr hmeta hb₃ hsz₃, hc₃, ?_⟩, ?_, ?_, ?_⟩
  · rw [hb₃, hbt, hfields₂.1]
    exact hg.base_pos
  · have hsplit := exact_split hl₁.tiles (hsize' ▸ hneeds.2.2) hexact₁
    rw [hspare] at hsplit
    exact hsplit
  · have h₂ : Only (within b ∪ {k | k ∈ fl}) s₁ s₂ := fun x _ => by rw [hfields₂.2.2.2]
    rw [hwithin] at honlyt
    refine ((honly₁.trans h₂).trans honlyt).trans (honly₃.mono ?_)
    intro k hk
    rcases List.mem_append.mp hk with hk | hk
    · exact .inl ((within_spare (hg.laid.sizes b hb).1 hneeds.2.2).2 k hk)
    · exact .inr hk
  · rw [hemp₃, hempt, hfields₂.2.2.1]
  · refine ⟨⟨hb₃.trans (hbt.trans hfields₂.1), hsz₃.trans (hst.trans hfields₂.2.1)⟩, ?_⟩
    exact (hcount₂.trans (hcountt (by rw [hb']))).trans (.of_stats (remove_stats b.start t₁) _)

end Allocate

section Malloc

theorem roundup_eq (hn : n ≤ MAX_REQUEST_SIZE) : roundup n ALIGNMENT = (n + 7) / 8 * 8 := by
  simp only [MAX_REQUEST_SIZE] at hn
  have hlt : n + 7 < 2 ^ 32 := by omega
  have hmask := and_high hlt (show 3 ≤ 32 by decide)
  have hround : roundup n ALIGNMENT = (n + 7) % 2 ^ 32 &&& (2 ^ 32 - 2 ^ 3) := rfl
  rw [hround, Nat.mod_eq_of_lt hlt, hmask]
  rfl

/-- What `equiv_malloc` looks for. -/
def needed (requested_size : ℕ) : ℕ :=
  roundup (if requested_size < MINIMUM_PAYLOAD then MINIMUM_PAYLOAD else requested_size) ALIGNMENT

theorem needed_spec (hn : n ≤ MAX_REQUEST_SIZE) : MINIMUM_PAYLOAD ≤ needed n ∧ needed n % 2 = 0 ∧
    n ≤ needed n ∧ needed n ≤ MAX_REQUEST_SIZE := by
  unfold needed
  split
  · rw [roundup_eq (by decide)]
    refine ⟨by decide, by decide, ?_, by decide⟩
    simp only [MINIMUM_PAYLOAD] at *
    omega
  · rw [roundup_eq hn]
    simp only [MAX_REQUEST_SIZE, MINIMUM_PAYLOAD] at *
    omega

theorem Good.length_le (hg : Good s bs fl) : fl.length ≤ s.size := by
  have hsub : fl ⊆ bs.map Block.start := by
    intro h hh
    obtain ⟨b, hb, rfl⟩ := hg.chain.sites h hh
    exact List.mem_map_of_mem hb
  have hle := (List.subperm_of_subset hg.chain.nodup hsub).length_le
  have htiles := hg.laid.tiles.length_le
  rw [List.length_map] at hle
  omega

/-- The search over the free list. -/
theorem find_best_spec (hg : Good s bs fl) (hne : fl ≠ []) (hneeds : 0 < needs) :
    (find_best s needs s.size s.first_free 0 SIZE_MAX = .ok 0 ∧
      ∀ b ∈ bs, b.free = true → b.size < needs) ∨
    ∃ b ∈ bs, find_best s needs s.size s.first_free 0 SIZE_MAX = .ok b.start ∧ b.free = true ∧
      needs ≤ b.size ∧ ∀ c ∈ bs, c.free = true → needs ≤ c.size → b.size ≤ c.size := by
  have hpos : ∀ h ∈ fl, h ≠ 0 := fun h hh => hg.chain.ne_zero hg.sites hh
  have hrun : find_best s needs s.size (fl.headD 0) 0 SIZE_MAX =
      .ok (fl.foldl (better s needs) (0, SIZE_MAX)).1 :=
    find_best_eq (0, SIZE_MAX) hg.chain.links hpos hne hg.length_le
  rw [← hg.chain.first] at hrun
  have hlisted : ∀ c ∈ bs, c.free = true → c.start ∈ fl ∧ get_size s c.start = c.size :=
    fun c hc hfree => ⟨(hg.exact c hc).mpr hfree, hg.laid.get_size hc⟩
  rcases @foldl_better s needs fl (0, SIZE_MAX) with ⟨heq, hmin⟩ | ⟨h, hh, heq, hle, -, hmin⟩
  · left
    rw [heq] at hrun
    refine ⟨hrun, fun b hb hfree => ?_⟩
    obtain ⟨hbfl, hsize⟩ := hlisted b hb hfree
    by_contra hge
    have hmax := hmin b.start hbfl (by omega)
    have hlt := hg.laid.size_lt hb
    simp only [SIZE_MAX] at hmax
    omega
  · right
    obtain ⟨b, hb, rfl⟩ := hg.chain.sites h hh
    rw [heq] at hrun
    rw [hg.laid.get_size hb] at hle hmin
    refine ⟨b, hb, hrun, (hg.exact b hb).mp hh, hle, fun c hc hfree hcn => ?_⟩
    obtain ⟨hcfl, hsize⟩ := hlisted c hc hfree
    rw [← hsize] at hcn ⊢
    exact hmin c.start hcfl hcn

theorem equiv_malloc_refused (s : Heap) (hn : n = 0 ∨ MAX_REQUEST_SIZE < n) :
    equiv_malloc n s = .ok (0, s) := if_pos hn

/-- The smallest free block that is large enough is allocated, if there is one. -/
theorem equiv_malloc_spec (hg : Good s bs fl) (hne : fl ≠ []) (hn : 0 < n) (hmax : n ≤ MAX_REQUEST_SIZE) :
    (equiv_malloc n s = .ok (0, s) ∧ ∀ b ∈ bs, b.free = true → b.size < needed n) ∨
    ∃ l b r t, bs = l ++ b :: r ∧ b.free = true ∧ needed n ≤ b.size ∧
      (∀ c ∈ bs, c.free = true → needed n ≤ c.size → b.size ≤ c.size) ∧
      equiv_malloc n s = .ok (get_payload_start b.start, t) ∧
      Good t (l ++ (split { b with free := false } (needed n) ++ r))
        (spare b (needed n) ++ fl.erase b.start) ∧
      Only (within b ∪ {k | k ∈ fl}) s t ∧
      t.emptied = (s.emptied || spare b (needed n) ++ fl.erase b.start == []) ∧ SameBounds s t ∧
      Accounts s bs t (l ++ (split { b with free := false } (needed n) ++ r)) := by
  obtain ⟨hlow, heven, -, -⟩ := needed_spec hmax
  have hcond : ¬(n = 0 ∨ MAX_REQUEST_SIZE < n) := by omega
  have hpos : 0 < needed n := by
    simp only [MINIMUM_PAYLOAD] at hlow
    omega
  rcases find_best_spec hg hne hpos with ⟨hrun, hsmall⟩ | ⟨b, hb, hrun, hfree, hle, hmin⟩
  · left
    refine ⟨?_, hsmall⟩
    rw [equiv_malloc, if_neg hcond]
    change (find_best s (needed n) s.size s.first_free 0 SIZE_MAX >>= _) = _
    rw [hrun]
    rfl
  · right
    obtain ⟨l, r, rfl⟩ := List.append_of_mem hb
    obtain ⟨t, halloc, hgt, honly, hempty, hbounds⟩ :=
      allocate_block_spec hg hfree ⟨hlow, heven, hle⟩
    have hne0 : b.start ≠ 0 := (hg.sites.pos b.start (start_mem hb)).ne'
    refine ⟨l, b, r, t, rfl, hfree, hle, hmin, ?_, hgt, honly, hempty, hbounds⟩
    rw [equiv_malloc, if_neg hcond]
    change (find_best s (needed n) s.size s.first_free 0 SIZE_MAX >>= _) = _
    rw [hrun]
    change (if b.start ≠ 0 then Except.ok (allocate_block b.start (needed n) s) else .ok (0, s)) = _
    rw [if_pos hne0, halloc]

end Malloc

section Free

theorem Tiles.stop_le {lo hi : ℕ} {d : Block} (ht : Tiles lo (l ++ r) hi) (hd : d ∈ l) (hc : c ∈ r) :
    d.stop ≤ c.start := by
  obtain ⟨mid, hl, hr⟩ := Tiles.append_iff.mp ht
  exact (hl.bounds hd).2.trans (hr.bounds hc).1

/-- A block merged with free blocks behind it, and a free list without these. -/
theorem Good.of_merged {P : Set ℕ} {lo hi : ℕ} {run rest : List Block} (hbase : 0 < t.base)
    (ht : Tiles lo (l ++ b :: (run ++ rest)) hi) (hnodup : fl.Nodup)
    (hsub : ∀ h ∈ fl, h ∈ starts (l ++ b :: (run ++ rest)))
    (hexact : ∀ d ∈ l ++ b :: (run ++ rest), d.start ∈ fl ↔ d.free = true)
    (hl : Laid P t (l ++ merged b run :: rest)) (hc : Chain P t (fl.diff (run.map Block.start))) :
    Good t (l ++ merged b run :: rest) (fl.diff (run.map Block.start)) := by
  have hkept : ∀ d ∈ l ++ b :: rest, d ∈ l ++ b :: (run ++ rest) ∧ d.start ∉ run.map Block.start := by
    have hbehind : ∀ d c : Block, d.stop ≤ c.start ∨ c.stop ≤ d.start → c.start ≠ d.start := by
      intro d c h
      have hd := d.start_lt_stop
      have hc := c.start_lt_stop
      omega
    have hne : ∀ d : Block, (∀ c ∈ run, d.stop ≤ c.start ∨ c.stop ≤ d.start) →
        d.start ∉ run.map Block.start := by
      intro d hd hmem
      obtain ⟨c, hc, heq⟩ := List.mem_map.mp hmem
      exact hbehind d c (hd c hc) heq
    intro d hd
    rcases List.mem_append.mp hd with hd | hd
    · refine ⟨List.mem_append_left _ hd, hne d fun c hc => .inl (ht.stop_le hd ?_)⟩
      exact List.mem_cons_of_mem b (List.mem_append_left rest hc)
    · rw [← List.singleton_append, ← List.append_assoc] at ht
      rcases List.mem_cons.mp hd with rfl | hd
      · refine ⟨by simp, hne d fun c hc => .inl (ht.stop_le (by simp) (List.mem_append_left rest hc))⟩
      · rw [← List.append_assoc] at ht
        exact ⟨by simp [hd], hne d fun c hc => .inr (ht.stop_le (by simp [hc]) hd)⟩
  have hsites : ∀ h ∈ fl.diff (run.map Block.start), h ∈ starts (l ++ merged b run :: rest) := by
    intro h hh
    obtain ⟨hh, hnot⟩ := hnodup.mem_sdiff_iff.mp hh
    obtain ⟨d, hd, rfl⟩ := hsub h hh
    have hd' : d ∈ l ++ b :: rest := by
      have hrun : d ∉ run := fun hmem => hnot (List.mem_map_of_mem hmem)
      simpa [hrun] using hd
    rcases List.mem_append.mp hd' with hd | hd
    · exact start_mem (List.mem_append_left _ hd)
    · rcases List.mem_cons.mp hd with rfl | hd
      · exact ⟨merged d run, by simp, rfl⟩
      · exact start_mem (List.mem_append_right _ (List.mem_cons_of_mem _ hd))
  refine ⟨hbase, ⟨hl.tiles, hl.high, hl.sizes, hl.headers, fun d hd => start_mem hd⟩,
    hc.mono hsites, fun d hd => ?_⟩
  rw [hnodup.mem_sdiff_iff]
  rcases List.mem_append.mp hd with hd | hd
  · obtain ⟨hmem, hnot⟩ := hkept d (List.mem_append_left _ hd)
    rw [and_iff_left hnot]
    exact hexact d hmem
  · rcases List.mem_cons.mp hd with rfl | hd
    · obtain ⟨hmem, hnot⟩ := hkept b (by simp)
      rw [show (merged b run).start = b.start from rfl, and_iff_left hnot]
      exact hexact b hmem
    · obtain ⟨hmem, hnot⟩ := hkept d (List.mem_append_right _ (List.mem_cons_of_mem b hd))
      rw [and_iff_left hnot]
      exact hexact d hmem

/-- The statistics do not matter to the form of the heap. -/
theorem Good.congr (hg : Good s bs fl) (hmem : t.mem = s.mem) (hbounds : SameBounds s t)
    (hfirst : t.first_free = s.first_free) : Good t bs fl := by
  have hload : ∀ k f, t.load k f = s.load k f := fun k f => by rw [Heap.load, Heap.load, hmem]
  exact ⟨hbounds.1 ▸ hg.base_pos, hg.laid.congr (fun k _ => hload k metadata) hbounds.1 hbounds.2,
    hg.chain.congr (fun k _ f _ => hload k f) hfirst, hg.exact⟩

/-- A used block is marked free and put on the free list. -/
theorem append_freed (hg : Good s (l ++ b :: r) fl) (hused : b.free = false) (hne : fl ≠ []) :
    ∃ t, append_free_block b.start (set_status b.start STATUS_FREE s) = t ∧
      Good t (l ++ { b with free := true } :: r) (b.start :: fl) ∧
      Only (within b ∪ {k | k ∈ fl}) s t ∧ t.emptied = s.emptied ∧ SameBounds s t ∧
      t.stats = s.stats := by
  have hb : b ∈ l ++ b :: r := by simp
  have hP := hg.sites
  have hbfl : b.start ∉ fl := hg.not_free hb hused
  have hbw : b.start ∈ within b := ⟨le_refl _, Block.header_le (hg.laid.sizes b hb).1⟩
  have hset : set_status b.start STATUS_FREE s =
      s.store b.start metadata ({ b with free := true } : Block).word := hg.laid.set_status_eq hb true
  have hl₁ := hg.laid.set_free hP true
  have hc₁ := hg.chain.store_metadata hP (start_mem hb)
    (hl₁.word_lt (b := { b with free := true }) (by simp))
  have hl₂ := hl₁.congr (fun k hk => append_metadata hP hc₁ hne (start_mem hb) hbfl hk)
    (append_fields b.start _).1 (append_fields b.start _).2.1
  have hc₂ := hc₁.append hP hne (start_mem hb) hbfl
  have hfields := append_fields b.start (s.store b.start metadata ({ b with free := true } : Block).word)
  rw [← starts_set_free l r b true] at hl₂ hc₂
  rw [hset]
  refine ⟨_, rfl, ⟨hfields.1 ▸ hg.base_pos, hl₂, hc₂, fun d hd => ?_⟩, ?_, hfields.2.2,
    ⟨hfields.1, hfields.2.1⟩, append_stats b.start _⟩
  · rcases mem_set_free hd with rfl | ⟨hd, hd'⟩
    · simp
    · rw [List.mem_cons, or_iff_right (hg.laid.tiles.others hd)]
      exact hg.exact d hd'
  · exact (only_store s (.inl hbw) metadata _).trans
      (append_only hP hc₁ hne (.inl hbw) fun k hk => .inr hk)

theorem equiv_free_spec (hg : Good s (l ++ b :: r) fl) (hused : b.free = false) (hne : fl ≠ []) :
    ∃ t, equiv_free (get_payload_start b.start) s = .ok t ∧
      Good t (l ++ merged { b with free := true } (r.takeWhile Block.free) :: r.dropWhile Block.free)
        ((b.start :: fl).diff ((r.takeWhile Block.free).map Block.start)) ∧
      Only (within b ∪ {k | k ∈ fl}) s t ∧ t.emptied = s.emptied ∧ SameBounds s t ∧
      Accounts s (l ++ b :: r) t
        (l ++ merged { b with free := true } (r.takeWhile Block.free) :: r.dropWhile Block.free) := by
  have hb : b ∈ l ++ b :: r := by simp
  have hbw : b.start ∈ within b := ⟨le_refl _, Block.header_le (hg.laid.sizes b hb).1⟩
  obtain ⟨s₂, hs₂, hg₂, honly₂, hempty₂, hbounds₂, hstats₂⟩ := append_freed hg hused hne
  obtain ⟨s₃, hs₃⟩ : ∃ s₃, s₃ = { s₂ with
      blocks_used := s₂.blocks_used - 1
      blocks_free := s₂.blocks_free + 1
      bytes_free := s₂.bytes_free + BitVec.ofNat 32 (get_size s b.start)
      bytes_used := s₂.bytes_used - BitVec.ofNat 32 (get_size s b.start) } := ⟨_, rfl⟩
  have hsame : s₃.mem = s₂.mem ∧ SameBounds s₂ s₃ ∧ s₃.first_free = s₂.first_free ∧
      s₃.emptied = s₂.emptied := by
    rw [hs₃]
    exact ⟨rfl, ⟨rfl, rfl⟩, rfl, rfl⟩
  have hg₃ : Good s₃ (l ++ { b with free := true } :: r) (b.start :: fl) :=
    hg₂.congr hsame.1 hsame.2.1 hsame.2.2.1
  have hcount₃ : Accounts s (l ++ b :: r) s₃ (l ++ { b with free := true } :: r) := by
    refine accounts_set_free ?_
    rw [Block.stats_used hused, Block.stats_free (b := { b with free := true }) rfl, ← hstats₂, hs₃,
      hg.laid.get_size hb]
    refine Prod.ext ?_ (Prod.ext ?_ (Prod.ext ?_ ?_))
    all_goals simp [Heap.stats]
  have hfree : ∀ c ∈ r, c.free = true → c.start ∈ b.start :: fl := fun c hc hcf =>
    (hg₃.exact c (List.mem_append_right _ (List.mem_cons_of_mem _ hc))).mpr hcf
  obtain ⟨t, hrun, hlt, hct, honly, hempty, hbase, hsize, hcount⟩ :=
    coalesce_right_spec hg₃.sites hg₃.laid hg₃.chain List.mem_cons_self hfree
  have hbounds : SameBounds s t := (hbounds₂.trans hsame.2.1).trans ⟨hbase, hsize⟩
  have hptr : get_payload_start b.start ≠ 0 := by simp [get_payload_start, metadata_size]
  have hheader : header_of_payload (get_payload_start b.start) = b.start := Nat.add_sub_cancel _ _
  refine ⟨t, ?_, ?_, ?_, hempty.trans (hsame.2.2.2.trans hempty₂), hbounds,
    hcount₃.trans (hcount rfl)⟩
  · rw [equiv_free, if_neg hptr, hheader]
    simp only [hs₂]
    rw [← hs₃]
    exact hrun
  · have hr : r.takeWhile Block.free ++ r.dropWhile Block.free = r := List.takeWhile_append_dropWhile
    rw [← hr] at hg₃
    exact Good.of_merged (hbounds.1 ▸ hg.base_pos) hg₃.laid.tiles hg₃.chain.nodup hg₃.chain.sites
      hg₃.exact hlt hct
  · have h₃ : Only (within b ∪ {k | k ∈ fl}) s₂ s₃ := fun x _ => by rw [hsame.1]
    refine (honly₂.trans h₃).trans (honly.mono ?_)
    rintro k hk
    rcases List.mem_cons.mp hk with rfl | hk
    · exact .inl hbw
    · exact .inr hk

end Free

section Realloc

theorem merged_absorb (b c : Block) (run : List Block) :
    ({ b with size := b.size + ((merged c run).size + metadata_size) } : Block) = merged b (c :: run) ∧
      (merged c run).size + metadata_size = span (c :: run) := by
  simp only [merged, span, List.map_cons, List.sum_cons, Block.mk.injEq, true_and, and_true]
  omega

theorem absorb_right_nothing (hg : Good s (l ++ b :: r) fl) (hrun : r.takeWhile Block.free = []) :
    absorb_right b.start b.size s = .ok (0, s) := by
  have hb : b ∈ l ++ b :: r := by simp
  have hnext := hg.laid.next_block_of_end (hg.laid.get_payload_end hb)
  rw [absorb_right, hnext]
  cases r with
  | nil => rfl
  | cons c r =>
    have hc : c ∈ l ++ b :: c :: r := by simp
    have hcf : c.free = false := by
      cases hfree : c.free with
      | false => rfl
      | true => simp [hfree] at hrun
    simp [hg.laid.get_status hc, Block.status, hcf, STATUS_FREE, STATUS_USED]

/-- A used block that takes in its free right neighbour gains its size and a header. -/
theorem accounts_grown (hb : b.free = false) (hc : c.free = true)
    (hst : t.stats = s.stats + (0, -1, BitVec.ofNat 32 (c.size + metadata_size),
      -BitVec.ofNat 32 c.size)) :
    Accounts s (l ++ ([b] ++ c :: r)) t
      (l ++ { b with size := b.size + (c.size + metadata_size) } :: r) := by
  have hb' : ({ b with size := b.size + (c.size + metadata_size) } : Block).stats =
      (1, 0, BitVec.ofNat 32 b.size + BitVec.ofNat 32 (c.size + metadata_size), 0) := by
    rw [← BitVec.ofNat_add]
    exact Block.stats_used hb
  refine Accounts.replace (m := [b, c])
    (n := [{ b with size := b.size + (c.size + metadata_size) }]) ?_
  rw [hst]
  simp only [List.map_cons, List.map_nil, List.sum_cons, List.sum_nil, Block.stats_used hb,
    Block.stats_free hc, hb']
  refine Prod.ext ?_ (Prod.ext ?_ (Prod.ext ?_ ?_))
  · simp
  · simp
    omega
  · simp
    abel
  · simp
    abel

/-- A used block is kept when only headers on the free list are stored to. -/
theorem Good.keeps_used (hg : Good s bs fl) (hb : b ∈ bs) (hused : b.free = false)
    (honly : Only {k | k ∈ fl} s t) : Keeps b s t := by
  refine honly.keeps hg.laid.tiles hb fun k hk => ?_
  obtain ⟨d, hd, rfl⟩ := hg.chain.sites k hk
  exact ⟨d, hd, fun heq => hg.not_free hb hused (heq ▸ hk), le_refl _,
    Block.header_le (hg.laid.sizes d hd).1⟩

/-- A free block leaves the free list, and its left neighbour grows over it. -/
theorem Good.grow (hg : Good s (l ++ b :: c :: r) fl) (hcf : c.free = true) : ∃ u,
    set_size b.start (merged b [c]).size (remove_free_block c.start s) = u ∧
      Good u (l ++ merged b [c] :: r) (fl.erase c.start) ∧ get_size u c.start = c.size ∧
      Only (within b ∪ {k | k ∈ fl}) s u ∧ u.emptied = (s.emptied || fl.erase c.start == []) ∧
      SameBounds s u ∧ u.stats = s.stats ∧
      (b.free = false → Carries b.size (get_payload_start b.start) (get_payload_start b.start) s u) := by
  obtain ⟨hb, hc⟩ := merged_mem l r b c
  have hP := hg.sites
  have hbw : b.start ∈ within b := ⟨le_refl _, Block.header_le (hg.laid.sizes b hb).1⟩
  obtain ⟨hchain, hmeta, honly, hempty⟩ := remove_mem hP hg.chain ((hg.exact c hc).mpr hcf)
  obtain ⟨hbase, hsize, -⟩ := remove_fields c.start s
  have hlaid := hg.laid.congr hmeta hbase hsize
  have hgrown : merged b [c] ∈ l ++ merged b [c] :: r := by simp
  have hspan : merged b [c] = { b with size := b.size + (c.size + metadata_size) } := by
    simp only [merged, span, List.map_cons, List.map_nil, List.sum_cons, List.sum_nil, Nat.add_zero,
      Nat.add_comm metadata_size]
  have hl := hlaid.absorb hP
  rw [← hspan] at hl
  have hset := hlaid.set_size_eq hb (hl.sizes _ hgrown).2 (hl.size_lt hgrown)
  have hword : ({ b with size := (merged b [c]).size } : Block).word = (merged b [c]).word := rfl
  rw [hword] at hset
  have hstored := hchain.store_metadata hP (start_mem hb) (hl.word_lt hgrown)
  have hkept : get_size ((remove_free_block c.start s).store b.start metadata (merged b [c]).word) c.start =
      c.size := by
    have hne : c.start ≠ b.start := hg.laid.tiles.others (List.mem_append_right l List.mem_cons_self)
    rw [get_size, load_store hP (start_mem hb) (start_mem hc) _ _ (hl.word_lt hgrown),
      if_neg fun heq => hne heq.1]
    exact hlaid.get_size hc
  refine ⟨_, hset, ?_, hkept, ?_, hempty, ⟨hbase, hsize⟩, remove_stats c.start s, fun hused => ?_⟩
  · have herase : fl.erase c.start = fl.diff ([c].map Block.start) := by simp
    have htiles : Tiles s.base (l ++ b :: ([c] ++ r)) (s.base + s.size) := hg.laid.tiles
    rw [herase] at hstored ⊢
    exact Good.of_merged (hbase ▸ hg.base_pos) htiles hg.chain.nodup hg.chain.sites hg.exact hl hstored
  · exact (honly.mono fun k hk => .inr hk).trans (only_store _ (.inl hbw) _ _)
  · -- up to the new size, only headers on the free list were stored to
    exact (hg.keeps_used hb hused honly).carries.trans (carries_store b.size b.start (merged b [c]).word _)

theorem absorb_right_free (hg : Good s (l ++ b :: c :: r) fl) (hcf : c.free = true) : ∃ t,
    absorb_right b.start b.size s = .ok (span (c :: r.takeWhile Block.free), t) ∧
      Good t (l ++ merged b (c :: r.takeWhile Block.free) :: r.dropWhile Block.free)
        (fl.diff ((c :: r.takeWhile Block.free).map Block.start)) ∧
      Only (within b ∪ {k | k ∈ fl}) s t ∧
      t.emptied = (s.emptied ||
        fl.diff ((c :: r.takeWhile Block.free).map Block.start) == []) ∧ SameBounds s t ∧
      (b.free = false → Carries b.size (get_payload_start b.start) (get_payload_start b.start) s t ∧
        Accounts s (l ++ b :: c :: r) t
          (l ++ merged b (c :: r.takeWhile Block.free) :: r.dropWhile Block.free)) := by
  obtain ⟨hb, hc⟩ := merged_mem l r b c
  have hnext : next_block s b.start = some c.start :=
    hg.laid.next_block_of_end (hg.laid.get_payload_end hb)
  have hl : Laid (starts (l ++ b :: c :: r)) s ((l ++ [b]) ++ c :: r) := by
    rw [List.append_assoc]
    exact hg.laid
  have hcfl : c.start ∈ fl := (hg.exact c hc).mpr hcf
  have hfree : ∀ d ∈ r, d.free = true → d.start ∈ fl := fun d hd hdf =>
    (hg.exact d (List.mem_append_right _ (List.mem_cons_of_mem b (List.mem_cons_of_mem c hd)))).mpr hdf
  obtain ⟨t, hcoalesce, hlt, hct, honly, hempty, hbase, hsize, hcount⟩ :=
    coalesce_right_spec hg.sites hl hg.chain hcfl hfree
  have hr : r.takeWhile Block.free ++ r.dropWhile Block.free = r := List.takeWhile_append_dropWhile
  generalize hrun : r.takeWhile Block.free = run at *
  generalize hrest : r.dropWhile Block.free = rest at *
  -- the free neighbours are one block now, which is absorbed as a whole
  have hgt : Good t (l ++ b :: merged c run :: rest) (fl.diff (run.map Block.start)) := by
    have hlist : ∀ c' r', (l ++ [b]) ++ c' :: r' = l ++ b :: c' :: r' := fun c' r' => List.append_assoc _ _ _
    rw [← hlist]
    rw [← hlist, ← hr] at hg
    exact Good.of_merged (hbase ▸ hg.base_pos) hg.laid.tiles hg.chain.nodup hg.chain.sites hg.exact hlt hct
  obtain ⟨u, hset, hgu, hkept, honlyu, hemptyu, hboundsu, hstatsu, hcarries⟩ := hgt.grow hcf
  obtain ⟨hmerged, hspan⟩ := merged_absorb b c run
  have hgrown : merged b [merged c run] = merged b (c :: run) := by
    rw [← hmerged]
    simp only [merged, span, List.map_cons, List.map_nil, List.sum_cons, List.sum_nil, Nat.add_zero,
      Nat.add_comm metadata_size]
  rw [hgrown] at hset hgu
  rw [← List.diff_cons_right] at hgu hemptyu
  have hspace : get_size t c.start + metadata_size = span (c :: run) := by
    have hsizet : get_size t c.start = (merged c run).size := hlt.get_size (b := merged c run) (by simp)
    rw [hsizet, hspan]
  have hfinal : absorb_right b.start b.size s = .ok (span (c :: run), { u with
      blocks_free := u.blocks_free - 1
      bytes_free := u.bytes_free - BitVec.ofNat 32 (get_size u c.start)
      bytes_used := u.bytes_used + BitVec.ofNat 32 (span (c :: run)) }) := by
    have hstatus : get_status s c.start = STATUS_FREE := by
      rw [hg.laid.get_status hc, Block.status, hcf]
      rfl
    have hsize : b.size + span (c :: run) = (merged b (c :: run)).size := rfl
    rw [absorb_right, hnext]
    simp only [if_pos hstatus]
    rw [hcoalesce]
    change Except.ok (get_size t c.start + metadata_size, _) = _
    rw [hspace, hsize, ← hset]
    rfl
  have hbounds : SameBounds s u := SameBounds.trans ⟨hbase, hsize⟩ hboundsu
  refine ⟨_, hfinal, hgu.congr rfl ⟨rfl, rfl⟩ rfl, ?_, ?_, hbounds, fun hused => ⟨?_, ?_⟩⟩
  · have hsub : ∀ k ∈ within b ∪ {k | k ∈ fl.diff (run.map Block.start)}, k ∈ within b ∪ {k | k ∈ fl} :=
      fun k hk => hk.imp_right fun hk => (hg.chain.nodup.mem_sdiff_iff.mp hk).1
    exact (honly.mono fun k hk => .inr hk).trans (honlyu.mono hsub)
  · rw [← hempty]
    exact hemptyu
  · exact (hg.keeps_used hb hused honly).carries.trans (hcarries hused)
  · have hcounted := hcount hcf
    rw [List.append_assoc, List.append_assoc] at hcounted
    refine hcounted.trans ?_
    rw [← hmerged]
    refine accounts_grown hused hcf ?_
    have hkept : get_size u c.start = (merged c run).size := hkept
    rw [← hstatsu, ← hspan, hkept]
    refine Prod.ext ?_ (Prod.ext ?_ (Prod.ext ?_ ?_))
    all_goals simp [Heap.stats, sub_eq_add_neg]

/-- The free blocks right of a used block are absorbed into it. -/
theorem absorb_right_spec (hg : Good s (l ++ b :: r) fl) : ∃ t,
    absorb_right b.start b.size s = .ok (span (r.takeWhile Block.free), t) ∧
      Good t (l ++ merged b (r.takeWhile Block.free) :: r.dropWhile Block.free)
        (fl.diff ((r.takeWhile Block.free).map Block.start)) ∧
      Only (within b ∪ {k | k ∈ fl}) s t ∧ (t.emptied = false → s.emptied = false ∧
        (fl ≠ [] → fl.diff ((r.takeWhile Block.free).map Block.start) ≠ [])) ∧ SameBounds s t ∧
      (b.free = false → Carries b.size (get_payload_start b.start) (get_payload_start b.start) s t ∧
        Accounts s (l ++ b :: r) t
          (l ++ merged b (r.takeWhile Block.free) :: r.dropWhile Block.free)) := by
  cases hrun : r.takeWhile Block.free with
  | nil =>
    have hrest : r.dropWhile Block.free = r := by
      have hr : r.takeWhile Block.free ++ r.dropWhile Block.free = r :=
        List.takeWhile_append_dropWhile
      rwa [hrun] at hr
    refine ⟨s, absorb_right_nothing hg hrun, ?_, Only.refl _ s, fun h => ⟨h, fun h => h⟩, ⟨rfl, rfl⟩,
      fun _ => ⟨.refl _ _ s, ?_⟩⟩
    · rw [hrest]
      exact hg
    · rw [hrest]
      exact .of_stats rfl _
  | cons c run =>
    cases r with
    | nil => cases hrun
    | cons d r =>
      have hdf : d.free = true := by
        cases hfree : d.free with
        | true => rfl
        | false => simp [hfree] at hrun
      have hdrop : (d :: r).dropWhile Block.free = r.dropWhile Block.free := by simp [hdf]
      rw [List.takeWhile_cons_of_pos hdf] at hrun
      obtain ⟨t, habsorb, hgt, honly, hempty, hbounds, hcount⟩ := absorb_right_free hg hdf
      rw [hrun] at habsorb hgt hempty hcount
      rw [← hdrop] at hgt hcount
      refine ⟨t, habsorb, hgt, honly, fun h => ?_, hbounds, hcount⟩
      rw [hempty, Bool.or_eq_false_iff] at h
      refine ⟨h.1, fun _ hnil => ?_⟩
      rw [hnil] at h
      cases h.2

/-- A call to grow a block, once the free blocks to its right have been absorbed. -/
theorem equiv_realloc_eq (hg : Good s (l ++ b :: r) fl) (hn : 0 < n) (hmax : n ≤ MAX_REQUEST_SIZE)
    (hsize : b.size < roundup n ALIGNMENT) {space : ℕ}
    (habsorb : absorb_right b.start b.size s = .ok (space, t)) :
    equiv_realloc (get_payload_start b.start) n s =
      if roundup n ALIGNMENT ≤ b.size + space then
        .ok (get_payload_start b.start, trim_block_if_possible b.start (roundup n ALIGNMENT) t)
      else (do
        let (new_block, s) ← equiv_malloc (roundup n ALIGNMENT) t
        if new_block = 0 then .ok (0, s)
        else do
          let s ← equiv_free (get_payload_start b.start)
            { s with mem := s.mem.copy new_block (get_payload_start b.start) (b.size + space) }
          .ok (new_block, s)) := by
  have hptr : get_payload_start b.start ≠ 0 := by simp [get_payload_start, metadata_size]
  have hheader : header_of_payload (get_payload_start b.start) = b.start := Nat.add_sub_cancel _ _
  have hget := hg.laid.get_size (b := b) (by simp)
  rw [equiv_realloc, if_neg hptr, if_neg hn.ne', if_neg (Nat.not_lt.mpr hmax), hheader, hget,
    if_neg (Nat.not_le.mpr hsize), habsorb]
  rfl

theorem equiv_realloc_enough (hg : Good s (l ++ b :: r) fl) (hn : 0 < n) (hmax : n ≤ MAX_REQUEST_SIZE)
    (hsize : roundup n ALIGNMENT ≤ b.size) : equiv_realloc (get_payload_start b.start) n s =
      .ok (get_payload_start b.start, s) := by
  have hptr : get_payload_start b.start ≠ 0 := by simp [get_payload_start, metadata_size]
  have hheader : header_of_payload (get_payload_start b.start) = b.start := Nat.add_sub_cancel _ _
  have hget := hg.laid.get_size (b := b) (by simp)
  rw [equiv_realloc, if_neg hptr, if_neg hn.ne', if_neg (Nat.not_lt.mpr hmax), hheader, hget, if_pos hsize]

end Realloc

end EquivChecker.Malloc
