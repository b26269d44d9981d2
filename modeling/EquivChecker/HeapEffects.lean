import EquivChecker.HeapCalls
import Mathlib.Data.List.TakeWhile

/-!
# Which blocks the calls spare

A call leaves every used block as it was, but its own argument, and what it returns is
a used block that is large enough. A realloc may empty the free list on its way; the
heap remembers that, and no claim is made about what follows.
-/

namespace EquivChecker.Malloc

open Heap Malloc.Field

/-- Used blocks that do not start in `A` stay where they are, with their bytes. -/
def Spares (A : Set ℕ) (s : Heap) (bs : List Block) (t : Heap) (bs' : List Block) : Prop :=
  ∀ c ∈ bs, c.free = false → c.start ∉ A → c ∈ bs' ∧ Keeps c s t

variable {s t u : Heap} {n needs q : ℕ} {A : Set ℕ} {fl fl' : List ℕ}
  {bs bs' bs'' l r : List Block} {b c : Block}

theorem Spares.trans (hst : Spares A s bs t bs') (htu : Spares A t bs' u bs'') : Spares A s bs u bs'' := by
  intro c hc hused hA
  obtain ⟨hc', hkeep⟩ := hst c hc hused hA
  obtain ⟨hc'', hkeep'⟩ := htu c hc' hused hA
  exact ⟨hc'', hkeep.trans hkeep'⟩

theorem Spares.mono {A' : Set ℕ} (h : Spares A s bs t bs') (hA : A ⊆ A') : Spares A' s bs t bs' :=
  fun c hc hused hnot => h c hc hused fun hmem => hnot (hA hmem)

theorem Spares.refl (A : Set ℕ) (s : Heap) (bs : List Block) : Spares A s bs s bs :=
  fun _ hc _ _ => ⟨hc, fun _ _ _ => rfl⟩

theorem spares_of_only (hg : Good s (l ++ b :: r) fl) (honly : Only (within b ∪ {k | k ∈ fl}) s t)
    (hb : b.free = true ∨ b.start ∈ A) (hkept : ∀ c ∈ l ++ r, c.free = false → c ∈ bs') :
    Spares A s (l ++ b :: r) t bs' := by
  intro c hc hused hA
  have hother : c ∈ l ++ r := by
    rcases List.mem_append.mp hc with hc | hc
    · exact List.mem_append_left _ hc
    · rcases List.mem_cons.mp hc with rfl | hc
      · rcases hb with hfree | hmem
        · rw [hused] at hfree
          cases hfree
        · exact absurd hmem hA
      · exact List.mem_append_right _ hc
  exact ⟨hkept c hother hused,
    keeps_others hg.laid hg.chain.sites honly hother (hg.not_free hc hused)⟩

theorem mem_dropWhile (hc : c ∈ r) (hused : c.free = false) : c ∈ r.dropWhile Block.free := by
  have hr : r.takeWhile Block.free ++ r.dropWhile Block.free = r := List.takeWhile_append_dropWhile
  rw [← hr] at hc
  rcases List.mem_append.mp hc with hc | hc
  · have hfree := List.mem_takeWhile_imp hc
    rw [hused] at hfree
    cases hfree
  · exact hc

/-- A used block that serves a request. -/
structure Serves (bs : List Block) (n q : ℕ) (b : Block) : Prop where
  mem : b ∈ bs
  used : b.free = false
  size : n ≤ b.size
  start : get_payload_start b.start = q

theorem split_serves (hneeds : needs ≤ b.size) (hused : b.free = false) :
    ∃ b', Serves (l ++ (split b needs ++ r)) needs (get_payload_start b.start) b' ∧
      b'.start = b.start := by
  unfold split
  split
  · exact ⟨{ b with size := needs }, ⟨by simp, hused, le_refl _, rfl⟩, rfl⟩
  · exact ⟨b, ⟨by simp, hused, hneeds, rfl⟩, rfl⟩

theorem equiv_malloc_effect (hg : Good s bs fl) (hne : fl ≠ []) (hn : 0 < n)
    (hmax : n ≤ MAX_REQUEST_SIZE) :
    (equiv_malloc n s = .ok (0, s) ∧ ∀ b ∈ bs, b.free = true → b.size < needed n) ∨
    ∃ b ∈ bs, b.free = true ∧ needed n ≤ b.size ∧ ∃ b' t bs',
      equiv_malloc n s = .ok (get_payload_start b.start, t) ∧
      Good t bs' (spare b (needed n) ++ fl.erase b.start) ∧ Spares ∅ s bs t bs' ∧
      Serves bs' (needed n) (get_payload_start b.start) b' ∧ b'.start = b.start ∧
      t.emptied = (s.emptied || spare b (needed n) ++ fl.erase b.start == []) ∧ SameBounds s t ∧
      Accounts s bs t bs' := by
  rcases equiv_malloc_spec hg hne hn hmax with hnone | ⟨l, b, r, t, rfl, hfree, hle, -, hrun, hgt,
    honly, hempty, hbounds, hcount⟩
  · exact .inl hnone
  · obtain ⟨b', hserves, hstart⟩ := split_serves (l := l) (r := r) (b := { b with free := false }) hle rfl
    refine .inr ⟨b, by simp, hfree, hle, b', t, _, hrun, hgt, ?_, hserves, hstart, hempty, hbounds,
      hcount⟩
    refine spares_of_only hg honly (.inl hfree) fun c hc _ => ?_
    rcases List.mem_append.mp hc with hc | hc
    · exact List.mem_append_left _ hc
    · exact List.mem_append_right _ (List.mem_append_right _ hc)

theorem mem_merged {b' : Block} (hc : c ∈ l ++ r) (hused : c.free = false) :
    c ∈ l ++ b' :: r.dropWhile Block.free := by
  rcases List.mem_append.mp hc with hc | hc
  · exact List.mem_append_left _ hc
  · exact List.mem_append_right _ (List.mem_cons_of_mem _ (mem_dropWhile hc hused))

theorem equiv_free_effect (hg : Good s bs fl) (hb : b ∈ bs) (hused : b.free = false) (hne : fl ≠ []) :
    ∃ t bs' fl', equiv_free (get_payload_start b.start) s = .ok t ∧ Good t bs' fl' ∧ fl' ≠ [] ∧
      (∃ d ∈ bs', d.start = b.start ∧ d.free = true) ∧
      Spares {b.start} s bs t bs' ∧ t.emptied = s.emptied ∧ SameBounds s t ∧ Accounts s bs t bs' := by
  obtain ⟨l, r, rfl⟩ := List.append_of_mem hb
  obtain ⟨t, hrun, hgt, honly, hempty, hbounds, hcount⟩ := equiv_free_spec hg hused hne
  have hmem : merged { b with free := true } (r.takeWhile Block.free) ∈
      l ++ merged { b with free := true } (r.takeWhile Block.free) :: r.dropWhile Block.free := by simp
  refine ⟨t, _, _, hrun, hgt, ?_, ⟨_, hmem, rfl, rfl⟩, ?_, hempty, hbounds, hcount⟩
  · exact List.ne_nil_of_mem ((hgt.exact _ hmem).mpr rfl)
  · exact spares_of_only hg honly (.inr rfl) fun c hc hcused => mem_merged hc hcused

/-- The payload of a used block may be written. -/
theorem Good.payload (hg : Good s bs fl) (hb : b ∈ bs) (hused : b.free = false)
    (hfields : SameBounds s t ∧ t.first_free = s.first_free)
    (hmem : ∀ x, x < get_payload_start b.start ∨ b.stop ≤ x → t.mem x = s.mem x) :
    Good t bs fl ∧ ∀ c ∈ bs, c ≠ b → Keeps c s t := by
  have hkeeps : ∀ c ∈ bs, c ≠ b → Keeps c s t := by
    intro c hc hne x hx hx'
    refine hmem x ?_
    simp only [get_payload_start]
    rcases hg.laid.tiles.separate hc hb with heq | hlt | hlt
    · exact absurd heq hne
    · omega
    · omega
  have hheader : ∀ c ∈ bs, t.load c.start metadata = s.load c.start metadata := by
    intro c hc
    by_cases heq : c = b
    · rw [heq]
      refine Bytes.read_congr fun x hx hx' => hmem x (.inl ?_)
      simp only [get_payload_start, metadata_size, Field.offset] at *
      omega
    · have hstop := Block.header_le (hg.laid.sizes c hc).1
      refine Bytes.read_congr fun x hx hx' => hkeeps c hc heq x ?_ ?_
      · simp only [Field.offset] at *
        omega
      · simp only [Field.offset, header_size] at *
        omega
  refine ⟨⟨hfields.1.1 ▸ hg.base_pos, ?_, ?_, hg.exact⟩, hkeeps⟩
  · refine hg.laid.congr ?_ hfields.1.1 hfields.1.2
    rintro _ ⟨c, hc, rfl⟩
    exact hheader c hc
  · refine hg.chain.congr (fun k hk f hf => ?_) hfields.2
    obtain ⟨c, hc, rfl⟩ := hg.chain.sites k hk
    have hne : c ≠ b := by
      rintro rfl
      exact hg.not_free hc hused hk
    have hstop := Block.header_le (hg.laid.sizes c hc).1
    have hoff := f.offset_le
    refine Bytes.read_congr fun x hx hx' => hkeeps c hc hne x ?_ ?_
    · omega
    · omega

section Emptied

/-- The heap that a call ends or fails in. -/
def final {α : Type} (heap : α → Heap) : Outcome α → Heap
  | .ok a => heap a
  | .error e => e.2

theorem remove_emptied {h : ℕ} (hs : s.emptied = true) : (remove_free_block h s).emptied = true := by
  rw [(remove_fields h s).2.2, hs]
  rfl

theorem coalesce_emptied {base fuel next : ℕ} (hs : s.emptied = true) :
    (final id (coalesce_loop base fuel next s)).emptied = true := by
  induction fuel generalizing s next with
  | zero => exact hs
  | succ fuel ih =>
    rw [coalesce_loop]
    split
    · exact hs
    · dsimp only
      split
      · exact ih (remove_emptied hs)
      · exact hs

theorem trim_emptied (h needs : ℕ) (s : Heap) :
    (trim_block_if_possible h needs s).emptied = s.emptied := by
  unfold trim_block_if_possible
  dsimp only
  split
  · exact (append_fields _ _).2.2
  · rfl

theorem equiv_free_emptied {p : ℕ} (hs : s.emptied = true) : (final id (equiv_free p s)).emptied = true := by
  unfold equiv_free
  split
  · exact hs
  · refine coalesce_emptied ?_
    exact (append_fields _ _).2.2.trans hs

theorem equiv_malloc_null (hfirst : s.first_free = 0) (hn : 0 < n) (hmax : n ≤ MAX_REQUEST_SIZE) :
    ∃ fault, equiv_malloc n s = .error (fault, s) := by
  have hcond : ¬(n = 0 ∨ MAX_REQUEST_SIZE < n) := by omega
  rw [equiv_malloc, if_neg hcond, hfirst]
  change ∃ fault, (find_best s (needed n) s.size 0 0 SIZE_MAX >>= _) = _
  cases s.size with
  | zero => exact ⟨.spins, rfl⟩
  | succ fuel => exact ⟨.nullDeref, rfl⟩

end Emptied

section Realloc

/-- A used block gives back what it does not need. -/
theorem trim_effect (hg : Good s (l ++ b :: r) fl) (hused : b.free = false)
    (hneeds : MINIMUM_PAYLOAD ≤ needs ∧ needs % 2 = 0 ∧ needs ≤ b.size)
    (hfl : spare b needs ≠ [] → fl ≠ []) : ∃ t bs' b', trim_block_if_possible b.start needs s = t ∧
      Good t bs' (spare b needs ++ fl) ∧ Spares {b.start} s (l ++ b :: r) t bs' ∧
      Serves bs' needs (get_payload_start b.start) b' ∧ b'.start = b.start ∧
      Carries needs (get_payload_start b.start) (get_payload_start b.start) s t ∧
      t.emptied = s.emptied ∧ SameBounds s t ∧ Accounts s (l ++ b :: r) t bs' := by
  obtain ⟨t, hrun, hl, hc, honly, hempty, hbase, hsize, hcarry, hcount⟩ :=
    trim_spec hg.base_pos hg.laid hg.chain hneeds hfl
  obtain ⟨b', hserves, hstart⟩ := split_serves (l := l) (r := r) hneeds.2.2 hused
  refine ⟨t, _, b', hrun, ⟨hbase ▸ hg.base_pos, hl, hc,
    exact_split hg.laid.tiles hneeds.2.2 hg.exact⟩, ?_, hserves, hstart,
    hcarry (hg.not_free (by simp) hused), hempty, ⟨hbase, hsize⟩, hcount hused⟩
  refine spares_of_only hg honly (.inr rfl) fun c hc _ => ?_
  rcases List.mem_append.mp hc with hc | hc
  · exact List.mem_append_left _ hc
  · exact List.mem_append_right _ (List.mem_append_right _ hc)

/-- Bytes are copied into the payload of a used block. -/
theorem Good.copied (hg : Good s bs fl) (hc : Serves bs n q c) {p size : ℕ} (hsize : size ≤ n) :
    Good { s with mem := s.mem.copy q p size } bs fl ∧
      ∀ d ∈ bs, d ≠ c → Keeps d s { s with mem := s.mem.copy q p size } := by
  refine hg.payload hc.mem hc.used ⟨⟨rfl, rfl⟩, rfl⟩ fun x hx => Bytes.copy_other ?_
  have hserved := hc.size
  rw [Block.stop, show c.start + metadata_size = q from hc.start, hc.start] at hx
  omega

/-- The end of `equiv_realloc`, when the block cannot grow far enough in place. -/
def move_block (old_ptr old_size needs : ℕ) (s : Heap) : Outcome (ℕ × Heap) := do
  let (new_block, s) ← equiv_malloc needs s
  if new_block = 0 then .ok (0, s)
  else do
    let s ← equiv_free old_ptr { s with mem := s.mem.copy new_block old_ptr old_size }
    .ok (new_block, s)

theorem payload_ne_zero (h : ℕ) : get_payload_start h ≠ 0 := by simp [get_payload_start, metadata_size]

/-- A block is moved, unless no block is large enough. -/
theorem move_effect (hg : Good s bs fl) (hb : b ∈ bs) (hused : b.free = false) (hne : fl ≠ [])
    (hn : 0 < needs) (hmax : needs ≤ MAX_REQUEST_SIZE) (hsize : b.size ≤ needs) :
    (move_block (get_payload_start b.start) b.size needs s = .ok (0, s) ∧
      ∀ c ∈ bs, c.free = true → c.size < needed needs) ∨
    ∃ c ∈ bs, c.free = true ∧ needed needs ≤ c.size ∧
      (spare c (needed needs) ++ fl.erase c.start = [] →
        (final Prod.snd (move_block (get_payload_start b.start) b.size needs s)).emptied = true) ∧
      (spare c (needed needs) ++ fl.erase c.start ≠ [] → ∃ c' t bs' fl',
        move_block (get_payload_start b.start) b.size needs s = .ok (get_payload_start c.start, t) ∧
        Good t bs' fl' ∧ fl' ≠ [] ∧ (∃ d ∈ bs', d.start = b.start ∧ d.free = true) ∧
        Spares {b.start} s bs t bs' ∧
        Serves bs' (needed needs) (get_payload_start c.start) c' ∧ c'.start = c.start ∧
        Carries b.size (get_payload_start b.start) (get_payload_start c.start) s t ∧
        t.emptied = s.emptied ∧ SameBounds s t ∧ Accounts s bs t bs') := by
  rcases equiv_malloc_effect hg hne hn hmax with ⟨hnone, hsmall⟩ | ⟨c, hc, hcf, hle, c', t, bs', hrun,
    hgt, hspares, hserves, hstart, hempty, hbounds, hcount⟩
  · left
    refine ⟨?_, hsmall⟩
    rw [move_block, hnone]
    rfl
  · right
    have hmove : move_block (get_payload_start b.start) b.size needs s =
        (equiv_free (get_payload_start b.start)
          { t with mem := t.mem.copy (get_payload_start c.start) (get_payload_start b.start) b.size }
          >>= fun s => .ok (get_payload_start c.start, s)) := by
      rw [move_block, hrun]
      exact if_neg (t := Except.ok (0, t)) (payload_ne_zero c.start)
    refine ⟨c, hc, hcf, hle, fun hnil => ?_, fun hfl => ?_⟩
    · rw [hmove]
      have htrue : t.emptied = true := by
        rw [hempty, hnil]
        simp
      have hfree := equiv_free_emptied (p := get_payload_start b.start) (s := { t with
        mem := t.mem.copy (get_payload_start c.start) (get_payload_start b.start) b.size }) htrue
      generalize equiv_free (get_payload_start b.start) _ = o at hfree ⊢
      cases o with
      | ok u => exact hfree
      | error e => exact hfree
    · -- the old block is still there, and the copy stays inside the new one
      obtain ⟨hb', hbkeep⟩ := hspares b hb hused (Set.notMem_empty _)
      obtain ⟨t₁, ht₁⟩ : ∃ t₁, t₁ = { t with
        mem := t.mem.copy (get_payload_start c.start) (get_payload_start b.start) b.size } := ⟨_, rfl⟩
      have hsame : SameBounds t t₁ ∧ t₁.emptied = t.emptied ∧ t₁.stats = t.stats := by
        rw [ht₁]
        exact ⟨⟨rfl, rfl⟩, rfl, rfl⟩
      obtain ⟨hg₁, hkeep₁⟩ := hgt.copied (p := get_payload_start b.start) hserves
        (hsize.trans (needed_spec hmax).2.2.1)
      rw [← ht₁] at hg₁ hkeep₁
      obtain ⟨u, bs'', fl'', hfree, hgu, hfl'', hfreed, hspares', hempty', hbounds', hcount'⟩ :=
        equiv_free_effect hg₁ hb' hused hfl
      have hcb : c'.start ≠ b.start := by
        rw [hstart]
        intro heq
        have hceq := hg.laid.tiles.eq_of_start hc hb heq
        rw [hceq, hused] at hcf
        cases hcf
      obtain ⟨hmem, hkept⟩ := hspares' c' hserves.mem hserves.used hcb
      refine ⟨c', u, bs'', fl'', ?_, hgu, hfl'', hfreed, ?_, ?_, hstart, ?_, ?_, ?_, ?_⟩
      · rw [hmove, ← ht₁, hfree]
        rfl
      · intro d hd hdused hdb
        obtain ⟨hd', hdkeep⟩ := hspares d hd hdused (Set.notMem_empty _)
        have hdc : d ≠ c' := by
          rintro rfl
          have hceq := hg.laid.tiles.eq_of_start hd hc hstart
          rw [← hceq, hdused] at hcf
          cases hcf
        obtain ⟨hd'', hdkeep'⟩ := hspares' d hd' hdused hdb
        exact ⟨hd'', (hdkeep.trans (hkeep₁ d hd' hdc)).trans hdkeep'⟩
      · exact ⟨hmem, hserves.used, hserves.size, hserves.start⟩
      · have hcarry := hkept.carries
        rw [hstart] at hcarry
        have hcopy : Carries b.size (get_payload_start b.start) (get_payload_start c.start) t t₁ := by
          rw [ht₁]
          exact fun i hi => Bytes.copy_at hi
        exact (hbkeep.carries.trans hcopy).trans
          (hcarry.mono ((hsize.trans (needed_spec hmax).2.2.1).trans hserves.size))
      · rw [hempty', hsame.2.1, hempty]
        simp [hfl]
      · exact (hbounds.trans hsame.1).trans hbounds'
      · exact (hcount.trans (.of_stats hsame.2.2 bs')).trans hcount'

/-- A block that has to grow absorbs what is free on its right, and is trimmed or moved then. -/
theorem equiv_realloc_effect (hg : Good s (l ++ b :: r) fl) (hn : 0 < n) (hmax : n ≤ MAX_REQUEST_SIZE)
    (hsize : b.size < roundup n ALIGNMENT) : ∃ t,
    equiv_realloc (get_payload_start b.start) n s =
      (if roundup n ALIGNMENT ≤ (merged b (r.takeWhile Block.free)).size then
        .ok (get_payload_start b.start, trim_block_if_possible b.start (roundup n ALIGNMENT) t)
      else move_block (get_payload_start b.start) (merged b (r.takeWhile Block.free)).size
        (roundup n ALIGNMENT) t) ∧
    Good t (l ++ merged b (r.takeWhile Block.free) :: r.dropWhile Block.free)
      (fl.diff ((r.takeWhile Block.free).map Block.start)) ∧
    Spares {b.start} s (l ++ b :: r) t
      (l ++ merged b (r.takeWhile Block.free) :: r.dropWhile Block.free) ∧
    (t.emptied = false → s.emptied = false ∧
      (fl ≠ [] → fl.diff ((r.takeWhile Block.free).map Block.start) ≠ [])) ∧ SameBounds s t ∧
    (b.free = false → Carries b.size (get_payload_start b.start) (get_payload_start b.start) s t ∧
      Accounts s (l ++ b :: r) t
        (l ++ merged b (r.takeWhile Block.free) :: r.dropWhile Block.free)) := by
  obtain ⟨t, habsorb, hgt, honly, hempty, hbounds⟩ := absorb_right_spec hg
  exact ⟨t, equiv_realloc_eq hg hn hmax hsize habsorb, hgt,
    spares_of_only hg honly (.inr rfl) fun c hc hused => mem_merged hc hused, hempty, hbounds.1,
    hbounds.2⟩

/-- What a block has to grow to. -/
theorem roundup_spec (hmax : n ≤ MAX_REQUEST_SIZE) (hsize : MINIMUM_PAYLOAD ≤ b.size)
    (hlt : b.size < roundup n ALIGNMENT) : MINIMUM_PAYLOAD ≤ roundup n ALIGNMENT ∧
      roundup n ALIGNMENT % 2 = 0 ∧ n ≤ roundup n ALIGNMENT ∧
      roundup n ALIGNMENT ≤ MAX_REQUEST_SIZE ∧ needed (roundup n ALIGNMENT) = roundup n ALIGNMENT := by
  have hround := roundup_eq hmax
  have hmax' : roundup n ALIGNMENT ≤ MAX_REQUEST_SIZE := by
    rw [hround]
    simp only [MAX_REQUEST_SIZE] at *
    omega
  have hlow : ¬roundup n ALIGNMENT < MINIMUM_PAYLOAD := by omega
  refine ⟨Nat.not_lt.mp hlow, ?_, ?_, hmax', ?_⟩
  · omega
  · omega
  · rw [needed, if_neg hlow, roundup_eq hmax', hround]
    omega

/-- Where a realloc that returns leaves the bytes of its argument: in place, if the block has
the room that it needs, and in another block otherwise. -/
structure Rehoused (s t : Heap) (bs' : List Block) (b : Block) (room n q : ℕ) : Prop where
  refused : q = 0 → Carries b.size (get_payload_start b.start) (get_payload_start b.start) s t
  served : q ≠ 0 → Carries (min b.size n) (get_payload_start b.start) q s t
  stays : q = get_payload_start b.start ↔ roundup n ALIGNMENT ≤ room
  freed : q ≠ 0 → q ≠ get_payload_start b.start → ∃ d ∈ bs', d.start = b.start ∧ d.free = true

/-- How a realloc that returns treats its argument: it stays, or a large enough block is
returned that no other used block was. -/
structure Reallocated (bs bs' : List Block) (b : Block) (n q : ℕ) : Prop where
  refused : q = 0 → ∃ b', Serves bs' b.size (get_payload_start b.start) b'
  served : q ≠ 0 → ∃ b', Serves bs' n q b'
  fresh : q ≠ 0 → q = get_payload_start b.start ∨ ∀ c ∈ bs, c.free = false → get_payload_start c.start ≠ q

theorem Serves.mono {k : ℕ} (h : Serves bs n q b) (hk : k ≤ n) : Serves bs k q b :=
  ⟨h.mem, h.used, hk.trans h.size, h.start⟩

theorem payload_inj {h k : ℕ} (heq : get_payload_start h = get_payload_start k) : h = k :=
  Nat.add_right_cancel heq

theorem serves_merged (l rest : List Block) (run : List Block) (hused : b.free = false) :
    Serves (l ++ merged b run :: rest) b.size (get_payload_start b.start) (merged b run) :=
  ⟨by simp, hused, Nat.le_add_right _ _, rfl⟩

/-- The free list is not empty where a realloc that has to grow the block `b` appends to it
or searches it; `quiet` says that this realloc has not emptied it. -/
structure Room (l : List Block) (b : Block) (r : List Block) (fl : List ℕ) (n : ℕ) (quiet : Prop) :
    Prop where
  trimmed : roundup n ALIGNMENT ≤ (merged b (r.takeWhile Block.free)).size →
    spare (merged b (r.takeWhile Block.free)) (roundup n ALIGNMENT) ≠ [] →
    fl.diff ((r.takeWhile Block.free).map Block.start) ≠ []
  searched : (merged b (r.takeWhile Block.free)).size < roundup n ALIGNMENT →
    fl.diff ((r.takeWhile Block.free).map Block.start) ≠ []
  freed : (merged b (r.takeWhile Block.free)).size < roundup n ALIGNMENT →
    ∀ c ∈ l ++ merged b (r.takeWhile Block.free) :: r.dropWhile Block.free, c.free = true →
    roundup n ALIGNMENT ≤ c.size → quiet ∨ spare c (roundup n ALIGNMENT) ++
      (fl.diff ((r.takeWhile Block.free).map Block.start)).erase c.start ≠ []

theorem equiv_realloc_good (hg : Good s (l ++ b :: r) fl) (hused : b.free = false) (hn : 0 < n)
    (hmax : n ≤ MAX_REQUEST_SIZE) (hsize : b.size < roundup n ALIGNMENT) {quiet : Prop}
    (hroom : Room l b r fl n quiet) (hquiet : quiet →
      (final Prod.snd (equiv_realloc (get_payload_start b.start) n s)).emptied = false) :
    ∃ q t bs' fl', equiv_realloc (get_payload_start b.start) n s = .ok (q, t) ∧ Good t bs' fl' ∧
      (t.emptied = false → fl ≠ [] → fl' ≠ []) ∧ Spares {b.start} s (l ++ b :: r) t bs' ∧
      Reallocated (l ++ b :: r) bs' b n q ∧
      Rehoused s t bs' b (merged b (r.takeWhile Block.free)).size n q ∧
      SameBounds s t ∧ Accounts s (l ++ b :: r) t bs' := by
  obtain ⟨hgrow, hmove, hleft⟩ := hroom
  obtain ⟨t, hrun, hgt, hspares, hempty, hbounds, hcount⟩ := equiv_realloc_effect hg hn hmax hsize
  obtain ⟨hkept, hcount⟩ := hcount hused
  have hgrown : b.size ≤ (merged b (r.takeWhile Block.free)).size := Nat.le_add_right _ _
  obtain ⟨hlow, heven, hle, hmax', hneeded⟩ :=
    roundup_spec hmax (hg.laid.sizes b (by simp)).1 hsize
  have hmused : (merged b (r.takeWhile Block.free)).free = false := hused
  have hmserves := serves_merged l (r.dropWhile Block.free) (r.takeWhile Block.free) hused
  have hmstart : (merged b (r.takeWhile Block.free)).start = b.start := rfl
  have hused₁ : ∀ c ∈ l ++ b :: r, c.free = false → c.start ≠ b.start →
      c ∈ l ++ merged b (r.takeWhile Block.free) :: r.dropWhile Block.free :=
    fun c hc hcused hcb => (hspares c hc hcused hcb).1
  generalize merged b (r.takeWhile Block.free) = m at *
  generalize fl.diff ((r.takeWhile Block.free).map Block.start) = fl₁ at *
  generalize r.dropWhile Block.free = rest at *
  by_cases hfits : roundup n ALIGNMENT ≤ m.size
  · obtain ⟨u, bs', b', htrim, hgu, hspares', hserves, -, hcarry, hempty', hbounds', hcount'⟩ :=
      trim_effect hgt hmused ⟨hlow, heven, hfits⟩ (hgrow hfits)
    rw [hmstart] at htrim hspares' hserves hcarry
    rw [if_pos hfits, htrim] at hrun
    refine ⟨_, u, bs', _, hrun, hgu, ?_, hspares.trans hspares',
      ⟨fun h => absurd h (payload_ne_zero _), fun _ => ⟨b', hserves.mono hle⟩, fun _ => .inl rfl⟩,
      ⟨fun h => absurd h (payload_ne_zero _), fun _ => ?_, iff_of_true rfl hfits,
        fun _ h => absurd rfl h⟩, hbounds.trans hbounds', hcount.trans hcount'⟩
    · intro hfalse hfl
      exact List.append_ne_nil_of_right_ne_nil _ ((hempty (hempty' ▸ hfalse)).2 hfl)
    · exact (hkept.mono (Nat.min_le_left _ _)).trans (hcarry.mono ((Nat.min_le_right _ _).trans hle))
  · have hlt : m.size < roundup n ALIGNMENT := Nat.lt_of_not_le hfits
    rw [if_neg hfits] at hrun
    have heffect := move_effect hgt hmserves.mem hmused (hmove hlt) (by omega) hmax' hlt.le
    rw [hmstart, hneeded] at heffect
    rcases heffect with ⟨hnone, -⟩ | ⟨c, hc, hcf, hcle, hraised, hdone⟩
    · rw [hnone] at hrun
      exact ⟨0, t, _, fl₁, hrun, hgt, fun hfalse hfl => (hempty hfalse).2 hfl, hspares,
        ⟨fun _ => ⟨m, hmserves⟩, fun h => absurd rfl h, fun h => absurd rfl h⟩,
        ⟨fun _ => hkept, fun h => absurd rfl h, iff_of_false (payload_ne_zero _).symm hfits,
          fun h => absurd rfl h⟩, hbounds, hcount⟩
    · have hne : spare c (roundup n ALIGNMENT) ++ fl₁.erase c.start ≠ [] := by
        intro hnil
        rcases hleft hlt c hc hcf hcle with hq | hne
        · have hfalse := hquiet hq
          rw [hrun, hraised hnil] at hfalse
          cases hfalse
        · exact hne hnil
      obtain ⟨c', u, bs', fl', hmoved, hgu, hfl', hfreed, hspares', hserves, hstart, hcarry, hempty',
        hbounds', hcount'⟩ := hdone hne
      rw [hmoved] at hrun
      have hcm : c.start ≠ b.start := by
        intro heq
        rw [hgt.laid.tiles.eq_of_start hc hmserves.mem (heq.trans hmstart.symm), hmused] at hcf
        cases hcf
      refine ⟨_, u, bs', fl', hrun, hgu, fun _ _ => hfl', hspares.trans hspares',
        ⟨fun h => absurd h (payload_ne_zero _), fun _ => ⟨c', hserves.mono hle⟩, fun _ => .inr ?_⟩,
        ⟨fun h => absurd h (payload_ne_zero _), fun _ => ?_,
          iff_of_false (fun h => hcm (payload_inj h)) hfits, fun _ _ => hfreed⟩,
        hbounds.trans hbounds', hcount.trans hcount'⟩
      · -- the block that was free is none of the used ones
        intro d hd hdused heq
        have hstart' := payload_inj heq
        by_cases hdb : d.start = b.start
        · exact hcm (hstart'.symm.trans hdb)
        · have hcd := hgt.laid.tiles.eq_of_start hc (hused₁ d hd hdused hdb) hstart'.symm
          rw [hcd, hdused] at hcf
          cases hcf
      · exact (hkept.mono (Nat.min_le_left _ _)).trans
          (hcarry.mono ((Nat.min_le_left _ _).trans hgrown))

/-- A realloc that has not emptied the free list had room. -/
theorem room_of_quiet (hg : Good s (l ++ b :: r) fl) (hne : fl ≠ []) (hn : 0 < n)
    (hmax : n ≤ MAX_REQUEST_SIZE) (hsize : b.size < roundup n ALIGNMENT)
    (hquiet : (final Prod.snd (equiv_realloc (get_payload_start b.start) n s)).emptied = false) :
    Room l b r fl n True := by
  obtain ⟨t, hrun, hgt, -, hempty, -⟩ := equiv_realloc_effect hg hn hmax hsize
  obtain ⟨hlow, -, -, hmax', -⟩ := roundup_spec hmax (hg.laid.sizes b (by simp)).1 hsize
  have hfl : fl.diff ((r.takeWhile Block.free).map Block.start) ≠ [] := by
    intro hnil
    have htrue : t.emptied = true := by
      cases hfalse : t.emptied with
      | false => exact absurd hnil ((hempty hfalse).2 hne)
      | true => rfl
    have hfirst : t.first_free = 0 := by
      rw [hgt.chain.first, hnil]
      rfl
    rw [hrun] at hquiet
    split at hquiet
    · have hsame := trim_emptied b.start (roundup n ALIGNMENT) t
      rw [htrue] at hsame
      exact absurd hsame (by simpa [final] using hquiet)
    · have hpos : 0 < roundup n ALIGNMENT := by
        simp only [MINIMUM_PAYLOAD] at hlow
        omega
      obtain ⟨fault, herror⟩ := equiv_malloc_null hfirst hpos hmax'
      rw [move_block, herror] at hquiet
      rw [show t.emptied = false from hquiet] at htrue
      cases htrue
  exact ⟨fun _ _ => hfl, fun _ => hfl, fun _ _ _ _ _ => .inl trivial⟩

end Realloc

end EquivChecker.Malloc
