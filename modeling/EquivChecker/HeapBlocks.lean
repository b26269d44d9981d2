import EquivChecker.HeapStatistics

/-!
# Splitting and merging blocks

`coalesce_right` merges a block with the free blocks right of it, and
`trim_block_if_possible` cuts off what a block does not need. Blocks to the left and to
the right of them stay as they are.
-/

namespace EquivChecker.Malloc

open Heap Malloc.Field

/-- Bytes that blocks occupy, headers included. -/
def span (bs : List Block) : ℕ := (bs.map fun b => metadata_size + b.size).sum

/-- A block that has absorbed the given blocks. -/
def merged (b : Block) (bs : List Block) : Block := { b with size := b.size + span bs }

variable {P A : Set ℕ} {s t : Heap} {h next needs : ℕ} {fl : List ℕ} {lo hi : ℕ}
  {bs l r : List Block} {b c : Block}

theorem sites_starts (hlo : 0 < lo) (ht : Tiles lo bs hi) (hhi : hi < 2 ^ 32)
    (hsizes : ∀ b ∈ bs, MINIMUM_PAYLOAD ≤ b.size ∧ b.size % 2 = 0) : Sites (starts bs) := by
  have hstop : ∀ b ∈ bs, b.start + header_size ≤ b.stop := by
    intro b hb
    have hsize := (hsizes b hb).1
    simp only [Block.stop, metadata_size, header_size, MINIMUM_PAYLOAD] at hsize ⊢
    omega
  constructor
  · rintro _ ⟨b, hb, rfl⟩
    exact hlo.trans_le (ht.bounds hb).1
  · rintro _ ⟨b, hb, rfl⟩
    have hbounds := ht.bounds hb
    have hlt := b.start_lt_stop
    omega
  · rintro _ ⟨b, hb, rfl⟩ _ ⟨c, hc, rfl⟩ hne
    have hbs := hstop b hb
    have hcs := hstop c hc
    rcases ht.separate hb hc with rfl | hlt | hlt
    · exact absurd rfl hne
    · exact .inl (hbs.trans hlt)
    · exact .inr (hcs.trans hlt)

/-- A store to a header of another block is not seen in a block. -/
theorem Only.keeps (hst : Only A s t) (ht : Tiles lo bs hi) (hc : c ∈ bs)
    (hA : ∀ h ∈ A, ∃ b ∈ bs, b.start ≠ c.start ∧ b.start ≤ h ∧ h + header_size ≤ b.stop) :
    Keeps c s t := by
  intro x hx hx'
  refine hst x fun h hh => ?_
  obtain ⟨b, hb, hne, hle, hle'⟩ := hA h hh
  rcases ht.separate hb hc with rfl | hlt | hlt
  · exact absurd rfl hne
  · omega
  · omega

/-- Headers that lie behind some bytes, or in other blocks, are stored to. -/
theorem Only.carries {n : ℕ} (hst : Only A s t) (ht : Tiles lo bs hi) (hc : c ∈ bs) (hn : n ≤ c.size)
    (hA : ∀ h ∈ A, get_payload_start c.start + n ≤ h ∨
      ∃ b ∈ bs, b.start ≠ c.start ∧ b.start ≤ h ∧ h + header_size ≤ b.stop) :
    Carries n (get_payload_start c.start) (get_payload_start c.start) s t := by
  intro i hi
  refine hst _ fun h hh => ?_
  simp only [get_payload_start] at hA ⊢
  rcases hA h hh with hbehind | ⟨b, hb, hne, hle, hle'⟩
  · omega
  · have hstop : c.stop = c.start + metadata_size + c.size := rfl
    rcases ht.separate hb hc with rfl | hlt | hlt
    · exact absurd rfl hne
    · omega
    · omega

theorem carries_store (n h v : ℕ) (s : Heap) :
    Carries n (get_payload_start h) (get_payload_start h) s (s.store h metadata v) := by
  intro i _
  apply Bytes.write_other
  simp only [Field.offset, get_payload_start, metadata_size]
  omega

theorem Block.header_le (hsize : MINIMUM_PAYLOAD ≤ b.size) : b.start + header_size ≤ b.stop := by
  simp only [Block.stop, metadata_size, header_size, MINIMUM_PAYLOAD] at hsize ⊢
  omega

section Coalesce

theorem merged_nil (b : Block) : merged b [] = b := rfl

theorem merged_cons (b c : Block) (bs : List Block) :
    merged b (c :: bs) = merged { b with size := b.size + (c.size + metadata_size) } bs := by
  simp only [merged, span, List.map_cons, List.sum_cons, Block.mk.injEq, true_and, and_true]
  omega

/-- A block takes in its right neighbour. -/
theorem Laid.absorb (hP : Sites P) (hl : Laid P s (l ++ b :: c :: r)) :
    Laid P (s.store b.start metadata ({ b with size := b.size + (c.size + metadata_size) } : Block).word)
      (l ++ { b with size := b.size + (c.size + metadata_size) } :: r) := by
  have hb : b ∈ l ++ b :: c :: r := by simp
  have hc : c ∈ l ++ b :: c :: r := by simp
  have hbsize := hl.sizes b hb
  have hcsize := hl.sizes c hc
  refine Laid.store (d := { b with size := b.size + (c.size + metadata_size) }) hP hl (hl.sites b hb)
    (by simp) ?_ ?_ (hl.tiles.replaced fun d => List.mem_cons_of_mem c)
  · simp only [metadata_size]
    omega
  · have ht : Tiles s.base (l ++ ([b, c] ++ r)) (s.base + s.size) := hl.tiles
    refine ht.replace (k := [{ b with size := b.size + (c.size + metadata_size) }]) ?_
    rintro lo hi ⟨rfl, hc, rfl⟩
    refine ⟨rfl, ?_⟩
    simp only [Tiles, Block.stop] at hc ⊢
    omega

theorem Tiles.next_start (ht : Tiles lo (l ++ b :: c :: r) hi) : c.start = b.stop := by
  obtain ⟨mid, -, -, hc, -⟩ := Tiles.append_iff.mp ht
  exact hc

theorem remove_mem (hP : Sites P) (hc : Chain P s fl) (hh : h ∈ fl) :
    Chain P (remove_free_block h s) (fl.erase h) ∧
      (∀ k ∈ P, (remove_free_block h s).load k metadata = s.load k metadata) ∧
      Only {k | k ∈ fl} s (remove_free_block h s) ∧
      (remove_free_block h s).emptied = (s.emptied || fl.erase h == []) := by
  obtain ⟨l₁, l₂, rfl⟩ := List.append_of_mem hh
  have hnot : h ∉ l₁ := fun hmem =>
    (List.nodup_append.mp hc.nodup).2.2 h hmem h List.mem_cons_self rfl
  have herase : (l₁ ++ h :: l₂).erase h = l₁ ++ l₂ := by
    rw [List.erase_append_right _ hnot, List.erase_cons_head]
  have hremove := hc.remove hP
  rw [herase]
  refine ⟨hremove, fun k hk => remove_metadata hP hc hk, remove_only hc fun k hk => ?_, ?_⟩
  · have hsub : (l₁ ++ l₂).Sublist (l₁ ++ h :: l₂) := by simp
    exact hsub.subset hk
  · rw [(remove_fields h s).2.2]
    congr 1
    rw [Bool.eq_iff_iff, beq_iff_eq, beq_iff_eq]
    exact hremove.first_eq_zero hP

theorem merged_mem (l r : List Block) (b c : Block) : b ∈ l ++ b :: c :: r ∧ c ∈ l ++ b :: c :: r := by
  simp

/-- One iteration of `coalesce_right`. -/
theorem coalesce_step (hP : Sites P) (hl : Laid P s (l ++ b :: c :: r)) (hc : Chain P s fl)
    (hcfl : c.start ∈ fl) : ∃ t, remove_free_block c.start
        (set_size b.start (get_size s b.start + (get_size s c.start + metadata_size)) s) = t ∧
      Laid P t (l ++ { b with size := b.size + (c.size + metadata_size) } :: r) ∧
      Chain P t (fl.erase c.start) ∧ get_payload_end t c.start = c.stop ∧
      Only ({b.start} ∪ {k | k ∈ fl}) s t ∧ t.emptied = (s.emptied || fl.erase c.start == []) ∧
      t.base = s.base ∧ t.size = s.size ∧ t.stats = s.stats := by
  obtain ⟨hb, hcmem⟩ := merged_mem l r b c
  have hl₁ := hl.absorb hP
  have hb₁ : { b with size := b.size + (c.size + metadata_size) } ∈
      l ++ { b with size := b.size + (c.size + metadata_size) } :: r := by simp
  have hset := hl.set_size_eq hb (hl₁.sizes _ hb₁).2 (hl₁.size_lt hb₁)
  have hc₁ := hc.store_metadata hP (hl.sites b hb) (hl₁.word_lt hb₁)
  rw [hl.get_size hb, hl.get_size hcmem, hset]
  have hcword : (s.store b.start metadata
      ({ b with size := b.size + (c.size + metadata_size) } : Block).word).load c.start metadata =
        c.word := by
    have hne : c.start ≠ b.start := hl.tiles.others (List.mem_append_right l List.mem_cons_self)
    rw [load_store hP (hl.sites b hb) (hl.sites c hcmem) _ _ (hl₁.word_lt hb₁),
      if_neg fun heq => hne heq.1]
    exact hl.headers c hcmem
  have honly₁ := only_store s (show b.start ∈ {b.start} ∪ {k | k ∈ fl} from .inl rfl) metadata
    ({ b with size := b.size + (c.size + metadata_size) } : Block).word
  generalize hs₁ : s.store b.start metadata
    ({ b with size := b.size + (c.size + metadata_size) } : Block).word = s₁ at *
  have hfields : s₁.emptied = s.emptied ∧ s₁.base = s.base ∧ s₁.size = s.size ∧
      s₁.stats = s.stats := by
    rw [← hs₁]
    exact ⟨rfl, rfl, rfl, rfl⟩
  obtain ⟨hc₂, hmeta, honly₂, hempty⟩ := remove_mem hP hc₁ hcfl
  obtain ⟨hbase, hsize, -⟩ := remove_fields c.start s₁
  refine ⟨_, rfl, hl₁.congr hmeta hbase hsize, hc₂, ?_, ?_, ?_, ?_, ?_, ?_⟩
  · rw [get_payload_end, get_size, hmeta c.start (hl.sites c hcmem), hcword,
      Laid.word_size (hl.sizes c hcmem).2 (hl.size_lt hcmem), ← Nat.add_assoc]
    exact Nat.mod_eq_of_lt (hl.stop_lt hcmem)
  · exact honly₁.trans (honly₂.mono fun k hk => .inr hk)
  · rw [hempty, hfields.1]
  · exact hbase.trans hfields.2.1
  · exact hsize.trans hfields.2.2.1
  · exact (remove_stats c.start s₁).trans hfields.2.2.2

/-- A free block that takes in its right neighbour gains a header. -/
theorem accounts_absorb (hb : b.free = true) (hc : c.free = true)
    (hst : t.stats = s.stats + (0, -1, 0, BitVec.ofNat 32 metadata_size)) :
    Accounts s (l ++ b :: c :: r) t
      (l ++ { b with size := b.size + (c.size + metadata_size) } :: r) := by
  have hb' : ({ b with size := b.size + (c.size + metadata_size) } : Block).stats =
      (0, 1, 0, BitVec.ofNat 32 b.size + (BitVec.ofNat 32 c.size + BitVec.ofNat 32 metadata_size)) := by
    rw [← BitVec.ofNat_add, ← BitVec.ofNat_add]
    exact Block.stats_free hb
  refine Accounts.replace (m := [b, c])
    (n := [{ b with size := b.size + (c.size + metadata_size) }]) ?_
  rw [hst]
  simp only [List.map_cons, List.map_nil, List.sum_cons, List.sum_nil, Block.stats_free hb,
    Block.stats_free hc, hb']
  refine Prod.ext ?_ (Prod.ext ?_ (Prod.ext ?_ ?_))
  · simp
  · simp
    omega
  · simp
  · simp
    abel

/-- The block and the free blocks right of it stay listed when it takes in its right neighbour. -/
theorem coalesce_listed (hl : Laid P s (l ++ b :: c :: r)) (hnodup : fl.Nodup) (hb : b.start ∈ fl)
    (hfree : ∀ d ∈ c :: r, d.free = true → d.start ∈ fl) : b.start ∈ fl.erase c.start ∧
      (∀ d ∈ r, d.free = true → d.start ∈ fl.erase c.start) ∧
      c.stop = ({ b with size := b.size + (c.size + metadata_size) } : Block).stop := by
  have hbne : b.start ≠ c.start :=
    (hl.tiles.others (List.mem_append_right l List.mem_cons_self)).symm
  have hne : ∀ d ∈ r, d.start ≠ c.start := by
    intro d hd
    have ht : Tiles s.base ((l ++ [b]) ++ c :: r) (s.base + s.size) := by simpa using hl.tiles
    exact ht.others (List.mem_append_right _ hd)
  refine ⟨hnodup.mem_erase_iff.mpr ⟨hbne, hb⟩, fun d hd hdf => ?_, ?_⟩
  · exact hnodup.mem_erase_iff.mpr ⟨hne d hd, hfree d (List.mem_cons_of_mem c hd) hdf⟩
  · have hstart := hl.tiles.next_start
    simp only [Block.stop] at hstart ⊢
    omega

/-- The free blocks right of a block are merged into it. -/
theorem coalesce_loop_spec (hP : Sites P) {fuel : ℕ} (hl : Laid P s (l ++ b :: r))
    (hc : Chain P s fl) (hb : b.start ∈ fl) (hfree : ∀ c ∈ r, c.free = true → c.start ∈ fl)
    (hend : get_payload_end s next = b.stop) (hfuel : r.length < fuel) :
    ∃ t, coalesce_loop b.start fuel next s = .ok t ∧
      Laid P t (l ++ merged b (r.takeWhile Block.free) :: r.dropWhile Block.free) ∧
      Chain P t (fl.diff ((r.takeWhile Block.free).map Block.start)) ∧
      Only {k | k ∈ fl} s t ∧ t.emptied = s.emptied ∧ t.base = s.base ∧ t.size = s.size ∧
      (b.free = true → Accounts s (l ++ b :: r) t
        (l ++ merged b (r.takeWhile Block.free) :: r.dropWhile Block.free)) := by
  induction r generalizing b s fl next fuel with
  | nil =>
    obtain ⟨fuel, rfl⟩ := Nat.exists_eq_succ_of_ne_zero (Nat.ne_of_gt hfuel)
    refine ⟨s, ?_, hl, hc, Only.refl _ s, rfl, rfl, rfl, fun _ => .of_stats rfl _⟩
    rw [coalesce_loop, hl.next_block_of_end hend]
    rfl
  | cons c r ih =>
    obtain ⟨fuel, rfl⟩ := Nat.exists_eq_succ_of_ne_zero (Nat.ne_of_gt (Nat.zero_lt_of_lt hfuel))
    obtain ⟨hbmem, hcmem⟩ := merged_mem l r b c
    have hnext : next_block s next = some c.start := hl.next_block_of_end hend
    rw [coalesce_loop, hnext]
    simp only [hl.get_status hcmem]
    cases hcf : c.free with
    | false =>
      refine ⟨s, ?_, ?_, ?_, Only.refl _ s, rfl, rfl, rfl, fun _ h => ?_⟩
      · simp [Block.status, hcf, STATUS_FREE, STATUS_USED]
      · simpa [hcf, merged_nil] using hl
      · simpa [hcf] using hc
      · simpa [hcf, merged_nil] using h
    | true =>
      have hcfl : c.start ∈ fl := hfree c List.mem_cons_self hcf
      obtain ⟨s₁, hs₁, hl₁, hc₁, hend₁, honly₁, hempty₁, hbase₁, hsize₁, hstats₁⟩ :=
        coalesce_step hP hl hc hcfl
      obtain ⟨hb₁, hfree₁, hstop⟩ := coalesce_listed hl hc.nodup hb hfree
      have hsub : ∀ k ∈ fl.erase c.start, k ∈ fl := fun k hk => List.mem_of_mem_erase hk
      have hrest := fun u (hu : Laid P u _ ∧ Chain P u _ ∧ get_payload_end u c.start = _) =>
        ih (b := { b with size := b.size + (c.size + metadata_size) }) (s := u) hu.1 hu.2.1 hb₁ hfree₁ hu.2.2
          (Nat.lt_of_succ_lt_succ hfuel)
      obtain ⟨t, hrun, hlt, hct, honly, hempty, hbase, hsize, hcount⟩ := hrest
        { s₁ with
          blocks_free := s₁.blocks_free - 1
          bytes_free := s₁.bytes_free + BitVec.ofNat 32 metadata_size }
        ⟨hl₁.congr (fun _ _ => rfl) rfl rfl, hc₁.congr (fun _ _ _ _ => rfl) rfl, hend₁.trans hstop⟩
      refine ⟨t, ?_, ?_, ?_, ?_, ?_, hbase.trans hbase₁, hsize.trans hsize₁, fun hbf h => ?_⟩
      · rw [if_pos (by simp [Block.status, hcf]), hs₁]
        exact hrun
      · simpa [hcf, merged_cons] using hlt
      · simpa [hcf, List.diff_cons] using hct
      · refine (honly₁.mono ?_).trans (honly.mono hsub)
        rintro k (rfl | hk)
        · exact hb
        · exact hk
      · have hnil : fl.erase c.start ≠ [] := List.ne_nil_of_mem hb₁
        refine (hempty.trans hempty₁).trans ?_
        simp [hnil]
      · have hthis := hcount hbf (accounts_absorb hbf hcf ?_ h)
        · simpa [hcf, merged_cons] using hthis
        · rw [← hstats₁]
          ext <;> simp [Heap.stats, sub_eq_add_neg]

theorem Tiles.length_le (ht : Tiles lo bs hi) : lo + bs.length ≤ hi := by
  induction bs generalizing lo with
  | nil => exact ht.le
  | cons b bs ih =>
    obtain ⟨rfl, ht⟩ := ht
    have hle := ih ht
    have hlt := b.start_lt_stop
    rw [List.length_cons]
    omega

theorem coalesce_right_spec (hP : Sites P) (hl : Laid P s (l ++ b :: r)) (hc : Chain P s fl)
    (hb : b.start ∈ fl) (hfree : ∀ c ∈ r, c.free = true → c.start ∈ fl) :
    ∃ t, coalesce_right b.start s = .ok t ∧
      Laid P t (l ++ merged b (r.takeWhile Block.free) :: r.dropWhile Block.free) ∧
      Chain P t (fl.diff ((r.takeWhile Block.free).map Block.start)) ∧
      Only {k | k ∈ fl} s t ∧ t.emptied = s.emptied ∧ t.base = s.base ∧ t.size = s.size ∧
      (b.free = true → Accounts s (l ++ b :: r) t
        (l ++ merged b (r.takeWhile Block.free) :: r.dropWhile Block.free)) := by
  refine coalesce_loop_spec hP hl hc hb hfree (hl.get_payload_end (by simp)) ?_
  have hlen := hl.tiles.length_le
  rw [List.length_append, List.length_cons] at hlen
  omega

end Coalesce

section Split

/-- The blocks that `trim_block_if_possible` makes of a block. -/
def split (b : Block) (needs : ℕ) : List Block :=
  if metadata_size + MINIMUM_PAYLOAD ≤ b.size - needs then
    [{ b with size := needs },
      ⟨b.start + metadata_size + needs, b.size - needs - metadata_size, true⟩]
  else [b]

/-- The new free block, if there is one. -/
def spare (b : Block) (needs : ℕ) : List ℕ :=
  if metadata_size + MINIMUM_PAYLOAD ≤ b.size - needs then [b.start + metadata_size + needs] else []

theorem tiles_split (hneeds : needs ≤ b.size) (h : Tiles lo [b] hi) : Tiles lo (split b needs) hi := by
  unfold split
  split
  · obtain ⟨hb, hstop⟩ := h
    refine ⟨hb, rfl, ?_⟩
    simp only [Tiles, Block.stop, metadata_size] at *
    omega
  · exact h

theorem metadata_lt {n v : ℕ} (hv : v < 2) (hn : n % 2 = 0) (hlt : n < 2 ^ 32) : n + v < 2 ^ 32 := by
  omega

theorem load_make_block (hP : Sites P) {loc n k : ℕ} {f : Field} (hloc : loc ∈ P) (hk : k ∈ P)
    (hn : n % 2 = 0) (hlt : n < 2 ^ 32) : (make_block loc STATUS_FREE n s).load k f =
      if k = loc ∧ f = metadata then (⟨loc, n, true⟩ : Block).word else s.load k f := by
  -- the old contents of the header show up in its status only until the status is set
  obtain ⟨free, hstatus⟩ : ∃ free, get_status s loc = (⟨loc, n, free⟩ : Block).status := by
    have hmod : get_status s loc = s.load loc metadata % 2 := by
      rw [get_status, show STATUS_MASK = 2 ^ 1 - 1 from rfl, Nat.and_two_pow_sub_one_eq_mod]
    rcases Nat.mod_two_eq_zero_or_one (s.load loc metadata) with h | h
    · exact ⟨false, hmod.trans h⟩
    · exact ⟨true, hmod.trans h⟩
  have hword : ∀ free, (⟨loc, n, free⟩ : Block).word < 2 ^ 32 := by
    intro free
    refine metadata_lt ?_ hn hlt
    rw [Laid.status_eq]
    split <;> decide
  have hmask := and_high hlt (show 1 ≤ 32 by decide)
  have hround : n / 2 ^ 1 * 2 ^ 1 = n := by omega
  have hset : set_size loc n s = s.store loc metadata (⟨loc, n, free⟩ : Block).word := by
    rw [set_size, hstatus, show SIZE_MASK = 2 ^ 32 - 2 ^ 1 from rfl, hmask, hround]
    exact congrArg (s.store loc metadata) (Laid.word_eq (b := ⟨loc, n, free⟩) hn)
  have hsize : get_size (set_size loc n s) loc = n := by
    rw [get_size, hset, load_store hP hloc hloc _ _ (hword free), if_pos ⟨rfl, rfl⟩]
    exact Laid.word_size (b := ⟨loc, n, free⟩) hn hlt
  have hor : n ||| (STATUS_FREE &&& STATUS_MASK) = (⟨loc, n, true⟩ : Block).word :=
    Laid.word_eq (b := ⟨loc, n, true⟩) hn
  rw [make_block, set_status, hsize, hor, load_store hP hloc hk _ _ (hword true), hset,
    load_store hP hloc hk _ _ (hword free)]
  split <;> simp [*]

theorem make_block_only {loc n : ℕ} (hloc : loc ∈ A) : Only A s (make_block loc STATUS_FREE n s) :=
  (only_store s hloc _ _).trans (only_store _ hloc _ _)

/-- What lies in a block and has room for a header. -/
def within (b : Block) : Set ℕ := {h | b.start ≤ h ∧ h + header_size ≤ b.stop}

/-- Only the block and the free list are touched, so any other block is kept. -/
theorem keeps_others (hl : Laid P s (l ++ b :: r)) (hfl : ∀ h ∈ fl, h ∈ starts (l ++ b :: r))
    (hst : Only (within b ∪ {k | k ∈ fl}) s t) (hc : c ∈ l ++ r) (hcfl : c.start ∉ fl) :
    Keeps c s t := by
  have hcmem : c ∈ l ++ b :: r := by
    rcases List.mem_append.mp hc with h | h
    · exact List.mem_append_left _ h
    · exact List.mem_append_right _ (List.mem_cons_of_mem b h)
  refine hst.keeps hl.tiles hcmem ?_
  rintro h (hh | hh)
  · exact ⟨b, by simp, (hl.tiles.others hc).symm, hh⟩
  · obtain ⟨d, hd, rfl⟩ := hfl h hh
    refine ⟨d, hd, fun heq => hcfl (heq ▸ hh), le_refl _, Block.header_le (hl.sizes d hd).1⟩

theorem within_spare (hsize : MINIMUM_PAYLOAD ≤ b.size) (hneeds : needs ≤ b.size) :
    b.start ∈ within b ∧ ∀ h ∈ spare b needs, h ∈ within b := by
  refine ⟨⟨le_refl _, Block.header_le hsize⟩, fun h hh => ?_⟩
  unfold spare at hh
  split at hh
  · rename_i hexcess
    rw [List.mem_singleton.mp hh]
    simp only [within, Block.stop, metadata_size, header_size, MINIMUM_PAYLOAD, Set.mem_ofPred_eq] at *
    omega
  · cases hh

theorem start_notMem_spare (ht : Tiles lo bs hi) (hb : b ∈ bs) (hneeds : needs ≤ b.size)
    (hc : c ∈ bs) : c.start ∉ spare b needs := by
  intro hmem
  unfold spare at hmem
  split at hmem
  · rename_i hexcess
    have hstart := List.mem_singleton.mp hmem
    have hstop := c.start_lt_stop
    simp only [metadata_size, MINIMUM_PAYLOAD] at hexcess hstart
    rcases ht.separate hc hb with rfl | hlt | hlt
    · omega
    · omega
    · simp only [Block.stop, metadata_size] at hlt
      omega
  · cases hmem

theorem trim_block_eq (hl : Laid P s bs) (hb : b ∈ bs) (hneeds : needs % 2 = 0 ∧ needs ≤ b.size)
    (hsplit : metadata_size + MINIMUM_PAYLOAD ≤ b.size - needs)
    (hend : get_payload_end (s.store b.start metadata ({ b with size := needs } : Block).word) b.start =
      b.start + metadata_size + needs) :
    trim_block_if_possible b.start needs s =
      let u := append_free_block (b.start + metadata_size + needs) (make_block
        (b.start + metadata_size + needs) STATUS_FREE (b.size - needs - metadata_size)
        (s.store b.start metadata ({ b with size := needs } : Block).word))
      { u with
        blocks_free := u.blocks_free + 1
        bytes_free := u.bytes_free + BitVec.ofNat 32 (b.size - needs - metadata_size)
        bytes_used := u.bytes_used - BitVec.ofNat 32 (b.size - needs) } := by
  have hlt := hl.size_lt hb
  rw [trim_block_if_possible, hl.get_size hb]
  simp only [if_pos hsplit, hl.set_size_eq hb hneeds.1 (hneeds.2.trans_lt hlt), hend]

/-- The metadata of both parts of a block is written, the second part over old payload. -/
theorem split_laid (hbase : 0 < s.base) (hl : Laid (starts (l ++ b :: r)) s (l ++ b :: r))
    (hneeds : MINIMUM_PAYLOAD ≤ needs ∧ needs % 2 = 0 ∧ needs ≤ b.size)
    (hsplit : metadata_size + MINIMUM_PAYLOAD ≤ b.size - needs) {b₁ n : Block}
    (hb₁ : b₁ = { b with size := needs })
    (hn : n = ⟨b.start + metadata_size + needs, b.size - needs - metadata_size, true⟩) :
    Sites (starts (l ++ b₁ :: n :: r)) ∧
      get_payload_end (s.store b.start metadata b₁.word) b.start = n.start ∧
      Laid (starts (l ++ b₁ :: n :: r)) (make_block n.start STATUS_FREE n.size
        (s.store b.start metadata b₁.word)) (l ++ b₁ :: n :: r) ∧
      ∀ k ∈ starts (l ++ b₁ :: n :: r), ∀ f, f ≠ metadata → (make_block n.start STATUS_FREE n.size
        (s.store b.start metadata b₁.word)).load k f = s.load k f := by
  have hbmem : b ∈ l ++ b :: r := by simp
  have hb₁mem : b₁ ∈ l ++ b₁ :: n :: r := by simp
  have hnmem : n ∈ l ++ b₁ :: n :: r := by simp
  have hbsize := hl.sizes b hbmem
  have hstart : b₁.start = b.start := by rw [hb₁]
  have hother : ∀ d ∈ l ++ b₁ :: n :: r, d ≠ b₁ → d ≠ n → d ∈ l ++ r := by
    intro d hd hd₁ hdn
    simpa [hd₁, hdn] using hd
  have hsub : ∀ d ∈ l ++ r, d ∈ l ++ b :: r := by
    intro d hd
    rcases List.mem_append.mp hd with h | h
    · exact List.mem_append_left _ h
    · exact List.mem_append_right _ (List.mem_cons_of_mem b h)
  have hb₁size : MINIMUM_PAYLOAD ≤ b₁.size ∧ b₁.size % 2 = 0 := by
    rw [hb₁]
    exact ⟨hneeds.1, hneeds.2.1⟩
  have hnsize : MINIMUM_PAYLOAD ≤ n.size ∧ n.size % 2 = 0 := by
    rw [hn]
    simp only [metadata_size, MINIMUM_PAYLOAD] at *
    omega
  have ht : Tiles s.base (l ++ b₁ :: n :: r) (s.base + s.size) := by
    have htiles : Tiles s.base (l ++ ([b] ++ r)) (s.base + s.size) := hl.tiles
    have hreplaced := htiles.replace fun lo hi => tiles_split hneeds.2.2
    rw [split, if_pos hsplit, ← hb₁, ← hn] at hreplaced
    exact hreplaced
  have hsizes : ∀ d ∈ l ++ b₁ :: n :: r, MINIMUM_PAYLOAD ≤ d.size ∧ d.size % 2 = 0 := by
    intro d hd
    by_cases hd₁ : d = b₁
    · rw [hd₁]
      exact hb₁size
    · by_cases hdn : d = n
      · rw [hdn]
        exact hnsize
      · exact hl.sizes d (hsub d (hother d hd hd₁ hdn))
  have hP := sites_starts hbase ht hl.high hsizes
  have hbP : b.start ∈ starts (l ++ b₁ :: n :: r) := ⟨b₁, hb₁mem, hstart⟩
  have hnP := start_mem hnmem
  have hnlt : n.size < 2 ^ 32 := by
    have hstop := (ht.bounds hnmem).2
    have hhigh := hl.high
    simp only [Block.stop] at hstop
    omega
  have hstop₁ : b₁.stop = n.start := by
    rw [hb₁, hn]
    rfl
  have hb₁lt : b₁.stop < 2 ^ 32 := (ht.bounds hb₁mem).2.trans_lt hl.high
  have hsize₁ : b₁.size < 2 ^ 32 := by
    simp only [Block.stop] at hb₁lt
    omega
  have hword : b₁.word < 2 ^ 32 := by
    refine metadata_lt ?_ hb₁size.2 hsize₁
    rw [Laid.status_eq]
    split <;> decide
  have hload : ∀ k ∈ starts (l ++ b₁ :: n :: r), ∀ f, (make_block n.start STATUS_FREE n.size
      (s.store b.start metadata b₁.word)).load k f = if k = n.start ∧ f = metadata then n.word
        else if k = b.start ∧ f = metadata then b₁.word else s.load k f := by
    intro k hk f
    rw [load_make_block hP hnP hk hnsize.2 hnlt, load_store hP hbP hk _ _ hword, hn]
  refine ⟨hP, ?_, ⟨ht, hl.high, hsizes, ?_, fun d hd => start_mem hd⟩, ?_⟩
  · rw [get_payload_end, get_size, load_store hP hbP hbP _ _ hword, if_pos ⟨rfl, rfl⟩,
      Laid.word_size hb₁size.2 hsize₁, ← hstart, ← Nat.add_assoc]
    exact (Nat.mod_eq_of_lt hb₁lt).trans hstop₁
  · intro d hd
    rw [hload _ (start_mem hd)]
    by_cases hdn : d.start = n.start
    · rw [if_pos ⟨hdn, rfl⟩, ht.eq_of_start hd hnmem hdn]
    · rw [if_neg fun heq => hdn heq.1]
      by_cases hdb : d.start = b.start
      · rw [if_pos ⟨hdb, rfl⟩, ht.eq_of_start hd hb₁mem (hdb.trans hstart.symm)]
      · rw [if_neg fun heq => hdb heq.1]
        refine hl.headers d (hsub d (hother d hd ?_ ?_))
        · rintro rfl
          exact hdb hstart
        · rintro rfl
          exact hdn rfl
  · intro k hk f hf
    rw [hload k hk, if_neg fun heq => hf heq.2, if_neg fun heq => hf heq.2]

/-- A used block that is split keeps what is needed. -/
theorem accounts_split (hused : b.free = false) (hneeds : needs ≤ b.size)
    (hsplit : metadata_size + MINIMUM_PAYLOAD ≤ b.size - needs)
    (hst : t.stats = s.stats + (0, 1, -BitVec.ofNat 32 (b.size - needs),
      BitVec.ofNat 32 (b.size - needs - metadata_size))) :
    Accounts s (l ++ b :: r) t (l ++ (split b needs ++ r)) := by
  have hsize : BitVec.ofNat 32 b.size = BitVec.ofNat 32 needs + BitVec.ofNat 32 (b.size - needs) := by
    rw [← BitVec.ofNat_add, Nat.add_sub_cancel' hneeds]
  have hb' : ({ b with size := needs } : Block).stats = (1, 0, BitVec.ofNat 32 needs, 0) :=
    Block.stats_used hused
  refine Accounts.replace (m := [b]) ?_
  rw [hst, split, if_pos hsplit]
  simp only [List.map_cons, List.map_nil, List.sum_cons, List.sum_nil, Block.stats_used hused, hb',
    hsize, Block.stats_free (b := ⟨b.start + metadata_size + needs, b.size - needs - metadata_size,
      true⟩) rfl]
  refine Prod.ext ?_ (Prod.ext ?_ (Prod.ext ?_ ?_))
  · simp
  · simp
  · simp
    abel
  · simp

/-- Trimming a block cuts a free block off it, if that is large enough. -/
theorem trim_spec (hbase : 0 < s.base) (hl : Laid (starts (l ++ b :: r)) s (l ++ b :: r))
    (hc : Chain (starts (l ++ b :: r)) s fl)
    (hneeds : MINIMUM_PAYLOAD ≤ needs ∧ needs % 2 = 0 ∧ needs ≤ b.size)
    (hfl : spare b needs ≠ [] → fl ≠ []) : ∃ t, trim_block_if_possible b.start needs s = t ∧
      Laid (starts (l ++ (split b needs ++ r))) t (l ++ (split b needs ++ r)) ∧
      Chain (starts (l ++ (split b needs ++ r))) t (spare b needs ++ fl) ∧
      Only (within b ∪ {k | k ∈ fl}) s t ∧ t.emptied = s.emptied ∧ t.base = s.base ∧
      t.size = s.size ∧ (b.start ∉ fl →
        Carries needs (get_payload_start b.start) (get_payload_start b.start) s t) ∧
      (b.free = false → Accounts s (l ++ b :: r) t (l ++ (split b needs ++ r))) := by
  have hbmem : b ∈ l ++ b :: r := by simp
  by_cases hsplit : metadata_size + MINIMUM_PAYLOAD ≤ b.size - needs
  · obtain ⟨b₁, hb₁⟩ : ∃ b₁ : Block, b₁ = { b with size := needs } := ⟨_, rfl⟩
    obtain ⟨n, hn⟩ : ∃ n : Block, n =
        ⟨b.start + metadata_size + needs, b.size - needs - metadata_size, true⟩ := ⟨_, rfl⟩
    have hnstart : n.start = b.start + metadata_size + needs := by rw [hn]
    have hnsize : n.size = b.size - needs - metadata_size := by rw [hn]
    obtain ⟨hP, hend, hl₂, hload⟩ := split_laid hbase hl hneeds hsplit hb₁ hn
    have hspare : spare b needs = [n.start] := by rw [spare, if_pos hsplit, hnstart]
    have hblocks : l ++ (split b needs ++ r) = l ++ b₁ :: n :: r := by
      rw [split, if_pos hsplit, ← hb₁, ← hn]
      rfl
    have htrim := trim_block_eq hl hbmem hneeds.2 hsplit (by rw [← hb₁, hend, hnstart])
    rw [← hb₁, ← hnstart, ← hnsize] at htrim
    have hne : fl ≠ [] := hfl (by rw [hspare]; exact List.cons_ne_nil _ _)
    have hnnot : n.start ∉ fl := by
      intro hmem
      obtain ⟨d, hd, heq⟩ := hc.sites _ hmem
      refine start_notMem_spare hl.tiles hbmem hneeds.2.2 hd ?_
      rw [hspare, heq]
      exact List.mem_singleton_self _
    have hfl' : ∀ h ∈ fl, h ∈ starts (l ++ b₁ :: n :: r) := by
      intro h hh
      obtain ⟨d, hd, rfl⟩ := hc.sites h hh
      rcases List.mem_append.mp hd with hd | hd
      · exact start_mem (List.mem_append_left _ hd)
      · rcases List.mem_cons.mp hd with rfl | hd
        · exact ⟨b₁, by simp, by rw [hb₁]⟩
        · exact start_mem (List.mem_append_right _ (List.mem_cons_of_mem _ (List.mem_cons_of_mem _ hd)))
    have hc₂ := (hc.mono hfl').congr (fun k hk f hf => hload k (hfl' k hk) f hf) rfl
    have hnP : n.start ∈ starts (l ++ b₁ :: n :: r) := start_mem (by simp)
    have hc₃ := hc₂.append hP hne hnP hnnot
    have hl₃ := hl₂.congr (fun k hk => append_metadata hP hc₂ hne hnP hnnot hk)
      (append_fields n.start _).1 (append_fields n.start _).2.1
    refine ⟨_, htrim, ?_, ?_, ?_, ?_, ?_, ?_, fun hbfl => ?_,
      fun hused => accounts_split hused hneeds.2.2 hsplit ?_⟩
    · rw [hblocks]
      exact hl₃.congr (fun _ _ => rfl) rfl rfl
    · rw [hblocks, hspare]
      exact hc₃.congr (fun _ _ _ _ => rfl) rfl
    · obtain ⟨hbw, hspw⟩ := within_spare (hl.sizes b hbmem).1 hneeds.2.2
      have hnw : n.start ∈ within b := hspw n.start (by rw [hspare]; exact List.mem_singleton_self _)
      refine ((only_store s (.inl hbw) metadata b₁.word).trans
        (make_block_only (n := n.size) (.inl hnw))).trans ?_
      exact append_only hP hc₂ hne (.inl hnw) fun k hk => .inr hk
    · exact (append_fields n.start _).2.2
    · exact (append_fields n.start _).1
    · exact (append_fields n.start _).2.1
    · -- the new header lies behind the bytes that are kept
      have hnew : n.start ∈ {n.start} ∪ {k | k ∈ fl} := .inl rfl
      have honly := (make_block_only (s := s.store b.start metadata b₁.word) (n := n.size) hnew).trans
        (append_only hP hc₂ hne hnew fun k hk => .inr hk)
      refine (carries_store needs b.start b₁.word s).trans
        (honly.carries hl.tiles hbmem hneeds.2.2 ?_)
      rintro k (rfl | hk)
      · exact .inl hnstart.ge
      · obtain ⟨d, hd, rfl⟩ := hc.sites k hk
        exact .inr ⟨d, hd, fun heq => hbfl (heq ▸ hk), le_refl _, Block.header_le (hl.sizes d hd).1⟩
    · have hstats := (append_stats n.start _).trans (make_block_stats n.start n.size
        (s.store b.start metadata b₁.word))
      rw [← hnsize, ← store_stats b.start b₁.word metadata s, ← hstats]
      refine Prod.ext ?_ (Prod.ext ?_ (Prod.ext ?_ ?_))
      all_goals simp [Heap.stats, sub_eq_add_neg]
  · have htrim : trim_block_if_possible b.start needs s = s := by
      rw [trim_block_if_possible, hl.get_size hbmem]
      simp only [if_neg hsplit]
    rw [split, spare, if_neg hsplit, if_neg hsplit]
    exact ⟨s, htrim, hl, hc, Only.refl _ s, rfl, rfl, rfl, fun _ => .refl _ _ s, fun _ => .of_stats rfl _⟩

end Split

end EquivChecker.Malloc
