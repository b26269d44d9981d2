import EquivChecker.DoublyLinked
import EquivChecker.Malloc

/-!
# Blocks and the free list

The blocks of the `next_block` walk tile the heap, and the metadata in front of each of
them holds its size and status. Headers of different blocks do not overlap, so a store
to one field of one header is not seen in any other.
-/

namespace EquivChecker.Malloc

open Heap Malloc.Field

structure Block where
  start : ℕ
  size : ℕ
  free : Bool
  deriving DecidableEq, Repr

def Block.stop (b : Block) : ℕ := b.start + metadata_size + b.size

def Block.status (b : Block) : ℕ := if b.free then STATUS_FREE else STATUS_USED

def Block.word (b : Block) : ℕ := b.size + b.status

/-- The blocks lie one after another between two addresses. -/
def Tiles : ℕ → List Block → ℕ → Prop
  | lo, [], hi => lo = hi
  | lo, b :: bs, hi => b.start = lo ∧ Tiles b.stop bs hi

section Tiling
variable {lo hi : ℕ} {bs l r : List Block} {b c : Block}

theorem Block.start_lt_stop (b : Block) : b.start < b.stop := by
  simp only [Block.stop, metadata_size]
  omega

theorem Tiles.append_iff : Tiles lo (l ++ r) hi ↔ ∃ mid, Tiles lo l mid ∧ Tiles mid r hi := by
  induction l generalizing lo with
  | nil => simp [Tiles]
  | cons b l ih => simp [Tiles, ih, and_assoc]

theorem Tiles.le (h : Tiles lo bs hi) : lo ≤ hi := by
  induction bs generalizing lo with
  | nil => exact h.le
  | cons b bs ih =>
    obtain ⟨rfl, h⟩ := h
    exact b.start_lt_stop.le.trans (ih h)

theorem Tiles.bounds (h : Tiles lo bs hi) (hb : b ∈ bs) : lo ≤ b.start ∧ b.stop ≤ hi := by
  induction bs generalizing lo with
  | nil => cases hb
  | cons c bs ih =>
    obtain ⟨rfl, h⟩ := h
    rcases List.mem_cons.mp hb with rfl | hb
    · exact ⟨le_refl _, h.le⟩
    · exact ⟨c.start_lt_stop.le.trans (ih h hb).1, (ih h hb).2⟩

theorem Tiles.separate (h : Tiles lo bs hi) (hb : b ∈ bs) (hc : c ∈ bs) :
    b = c ∨ b.stop ≤ c.start ∨ c.stop ≤ b.start := by
  induction bs generalizing lo with
  | nil => cases hb
  | cons d bs ih =>
    obtain ⟨rfl, h⟩ := h
    rcases List.mem_cons.mp hb with rfl | hb'
    · rcases List.mem_cons.mp hc with rfl | hc'
      · exact .inl rfl
      · exact .inr (.inl (h.bounds hc').1)
    · rcases List.mem_cons.mp hc with rfl | hc'
      · exact .inr (.inr (h.bounds hb').1)
      · exact ih h hb' hc'

theorem Tiles.eq_of_start (h : Tiles lo bs hi) (hb : b ∈ bs) (hc : c ∈ bs)
    (hstart : b.start = c.start) : b = c := by
  have hb' := b.start_lt_stop
  have hc' := c.start_lt_stop
  rcases h.separate hb hc with heq | hlt | hlt
  · exact heq
  · omega
  · omega

/-- Blocks in the middle are replaced by others with the same bounds. -/
theorem Tiles.replace {m k : List Block} (h : Tiles lo (l ++ (m ++ r)) hi)
    (hm : ∀ lo hi, Tiles lo m hi → Tiles lo k hi) : Tiles lo (l ++ (k ++ r)) hi := by
  obtain ⟨mid, hl, h⟩ := Tiles.append_iff.mp h
  obtain ⟨mid', hm', hr⟩ := Tiles.append_iff.mp h
  exact Tiles.append_iff.mpr ⟨mid, hl, Tiles.append_iff.mpr ⟨mid', hm _ _ hm', hr⟩⟩

theorem Tiles.others (h : Tiles lo (l ++ b :: r) hi) (hc : c ∈ l ++ r) : c.start ≠ b.start := by
  intro heq
  obtain ⟨mid, hl, hb, hr⟩ := Tiles.append_iff.mp h
  have hc' := c.start_lt_stop
  have hb' := b.start_lt_stop
  rcases List.mem_append.mp hc with hc | hc
  · have hbounds := hl.bounds hc
    omega
  · have hbounds := hr.bounds hc
    omega

/-- When a block is replaced, and some of those behind it may go, the rest starts elsewhere. -/
theorem Tiles.replaced {b' : Block} {r' : List Block} (h : Tiles lo (l ++ b :: r) hi)
    (hr : ∀ c ∈ r', c ∈ r) : ∀ c ∈ l ++ b' :: r', c = b' ∨ c ∈ l ++ b :: r ∧ c.start ≠ b.start := by
  intro c hc
  rcases List.mem_append.mp hc with hc | hc
  · exact .inr ⟨List.mem_append_left _ hc, h.others (List.mem_append_left _ hc)⟩
  · rcases List.mem_cons.mp hc with rfl | hc
    · exact .inl rfl
    · exact .inr ⟨List.mem_append_right _ (List.mem_cons_of_mem b (hr c hc)),
        h.others (List.mem_append_right _ (hr c hc))⟩

end Tiling

/-- Addresses of headers that do not overlap. -/
structure Sites (P : Set ℕ) : Prop where
  pos : ∀ h ∈ P, 0 < h
  lt : ∀ h ∈ P, h < 2 ^ 32
  apart : ∀ h ∈ P, ∀ k ∈ P, h ≠ k → h + header_size ≤ k ∨ k + header_size ≤ h

def starts (bs : List Block) : Set ℕ := {h | ∃ b ∈ bs, b.start = h}

theorem start_mem {bs : List Block} {b : Block} (hb : b ∈ bs) : b.start ∈ starts bs := ⟨b, hb, rfl⟩

/-- Memory has changed only in headers at the given addresses. -/
def Only (A : Set ℕ) (s t : Heap) : Prop :=
  ∀ x, (∀ h ∈ A, x < h ∨ h + header_size ≤ x) → t.mem x = s.mem x

/-- The bytes of a block are as they were. -/
def Keeps (c : Block) (s t : Heap) : Prop := ∀ x, c.start ≤ x → x < c.stop → t.mem x = s.mem x

/-- The `n` bytes at `p` are found at `q`. -/
def Carries (n p q : ℕ) (s t : Heap) : Prop := ∀ i < n, t.mem (q + i) = s.mem (p + i)

variable {P A B : Set ℕ} {s t u : Heap} {h k v : ℕ} {f g : Field}

theorem Only.refl (A : Set ℕ) (s : Heap) : Only A s s := fun _ _ => rfl

theorem Only.trans (hst : Only A s t) (htu : Only A t u) : Only A s u :=
  fun x hx => (htu x hx).trans (hst x hx)

theorem Only.mono (hst : Only A s t) (hAB : A ⊆ B) : Only B s t :=
  fun x hx => hst x fun h hh => hx h (hAB hh)

theorem Keeps.trans {c : Block} (hst : Keeps c s t) (htu : Keeps c t u) : Keeps c s u :=
  fun x hx hx' => (htu x hx hx').trans (hst x hx hx')

theorem Keeps.carries {c : Block} (hst : Keeps c s t) :
    Carries c.size (get_payload_start c.start) (get_payload_start c.start) s t := by
  intro i hi
  apply hst
  · simp only [get_payload_start]
    omega
  · simp only [get_payload_start, Block.stop]
    omega

theorem Carries.refl (n p : ℕ) (s : Heap) : Carries n p p s s := fun _ _ => rfl

theorem Carries.trans {n p q r : ℕ} (hst : Carries n p q s t) (htu : Carries n q r t u) :
    Carries n p r s u :=
  fun i hi => (htu i hi).trans (hst i hi)

theorem Carries.mono {m n p q : ℕ} (hst : Carries n p q s t) (hmn : m ≤ n) : Carries m p q s t :=
  fun i hi => hst i (hi.trans_le hmn)

theorem Field.offset_le (f : Field) : f.offset + 4 ≤ header_size := by cases f <;> decide

theorem Field.offset_apart (hfg : f ≠ g) : f.offset + 4 ≤ g.offset ∨ g.offset + 4 ≤ f.offset := by
  revert hfg
  cases f <;> cases g <;> decide

theorem only_store (s : Heap) (hh : h ∈ A) (f : Field) (v : ℕ) : Only A s (s.store h f v) := by
  intro x hx
  have hx := hx h hh
  have hf := f.offset_le
  exact Bytes.write_other (by omega)

theorem load_store (hP : Sites P) (hh : h ∈ P) (hk : k ∈ P) (f g : Field) (hv : v < 2 ^ 32) :
    (s.store h f v).load k g = if k = h ∧ g = f then v else s.load k g := by
  have hf := f.offset_le
  have hg := g.offset_le
  split
  · rename_i heq
    obtain ⟨rfl, rfl⟩ := heq
    exact Bytes.read_write_same _ _ hv
  · rename_i hne
    apply Bytes.read_write_disjoint
    by_cases hkh : k = h
    · have hfg : f ≠ g := fun heq => hne ⟨hkh, heq.symm⟩
      have hoff := offset_apart hfg
      omega
    · have hap := hP.apart h hh k hk (Ne.symm hkh)
      omega

theorem load_lt (s : Heap) (h : ℕ) (f : Field) : s.load h f < 2 ^ 32 := Bytes.read_lt _ _

/-- The tiling of the heap by blocks, as its metadata holds it. -/
structure Laid (P : Set ℕ) (s : Heap) (bs : List Block) : Prop where
  tiles : Tiles s.base bs (s.base + s.size)
  high : s.base + s.size < 2 ^ 32
  sizes : ∀ b ∈ bs, MINIMUM_PAYLOAD ≤ b.size ∧ b.size % 2 = 0
  headers : ∀ b ∈ bs, s.load b.start metadata = b.word
  sites : ∀ b ∈ bs, b.start ∈ P

/-- The free list, as its links hold it. -/
structure Chain (P : Set ℕ) (s : Heap) (fl : List ℕ) : Prop where
  sites : ∀ h ∈ fl, h ∈ P
  nodup : fl.Nodup
  links : Linked (s.load · next_free) (s.load · previous_free) 0 fl 0
  first : s.first_free = fl.headD 0

namespace Laid
variable {bs l r : List Block} {b c : Block} {n : ℕ}

theorem congr (hl : Laid P s bs) (hload : ∀ h ∈ P, t.load h metadata = s.load h metadata)
    (hbase : t.base = s.base) (hsize : t.size = s.size) : Laid P t bs where
  tiles := by rw [hbase, hsize]; exact hl.tiles
  high := by rw [hbase, hsize]; exact hl.high
  sizes := hl.sizes
  headers b hb := (hload _ (hl.sites b hb)).trans (hl.headers b hb)
  sites := hl.sites

theorem stop_lt (hl : Laid P s bs) (hb : b ∈ bs) : b.stop < 2 ^ 32 :=
  (hl.tiles.bounds hb).2.trans_lt hl.high

theorem status_eq (b : Block) : b.status = if b.free then 1 else 0 := rfl

theorem word_size (hsize : b.size % 2 = 0) (hlt : b.size < 2 ^ 32) : b.word &&& SIZE_MASK = b.size := by
  have hword : b.word < 2 ^ 32 := by
    simp only [Block.word, status_eq]
    split <;> omega
  have hmask := and_high hword (show 1 ≤ 32 by decide)
  rw [show SIZE_MASK = 2 ^ 32 - 2 ^ 1 from rfl, hmask]
  simp only [Block.word, status_eq]
  split <;> omega

theorem word_status (hsize : b.size % 2 = 0) : b.word &&& STATUS_MASK = b.status := by
  rw [show STATUS_MASK = 2 ^ 1 - 1 from rfl, Nat.and_two_pow_sub_one_eq_mod]
  simp only [Block.word, status_eq]
  split <;> omega

/-- Both parts of the metadata are put together. -/
theorem word_eq (hsize : b.size % 2 = 0) : b.size ||| b.status = b.word := by
  have hlt : b.status < 2 ^ 1 := by
    rw [status_eq]
    split <;> decide
  have hor := Nat.two_pow_add_eq_or_of_lt hlt (b.size / 2)
  have heq : 2 ^ 1 * (b.size / 2) = b.size := by omega
  rw [heq] at hor
  exact hor.symm

theorem size_lt (hl : Laid P s bs) (hb : b ∈ bs) : b.size < 2 ^ 32 := by
  have hstop := hl.stop_lt hb
  simp only [Block.stop] at hstop
  omega

theorem get_size (hl : Laid P s bs) (hb : b ∈ bs) : get_size s b.start = b.size := by
  rw [Malloc.get_size, hl.headers b hb, word_size (hl.sizes b hb).2 (hl.size_lt hb)]

theorem get_status (hl : Laid P s bs) (hb : b ∈ bs) : get_status s b.start = b.status := by
  rw [Malloc.get_status, hl.headers b hb, word_status (hl.sizes b hb).2]

theorem get_payload_end (hl : Laid P s bs) (hb : b ∈ bs) : get_payload_end s b.start = b.stop := by
  have hstop := hl.stop_lt hb
  rw [Malloc.get_payload_end, hl.get_size hb, ← Nat.add_assoc]
  exact Nat.mod_eq_of_lt hstop

/-- The walk goes from block to block. -/
theorem next_block_of_end (hl : Laid P s (l ++ b :: r)) (hend : Malloc.get_payload_end s h = b.stop) :
    next_block s h = r.head?.map Block.start := by
  obtain ⟨mid, -, hb, hr⟩ := Tiles.append_iff.mp hl.tiles
  rw [next_block, hend, Nat.mod_eq_of_lt hl.high]
  cases r with
  | nil =>
    have hstop : b.stop = s.base + s.size := hr
    simp [hstop]
  | cons c r =>
    obtain ⟨hc, hr⟩ := hr
    have hlt : b.stop < s.base + s.size := by
      rw [← hc]
      exact c.start_lt_stop.trans_le hr.le
    simp [Nat.not_le.mpr hlt, hc]

theorem set_status_eq (hl : Laid P s bs) (hb : b ∈ bs) (free : Bool) :
    set_status b.start (if free then STATUS_FREE else STATUS_USED) s =
      s.store b.start metadata ({ b with free } : Block).word := by
  rw [set_status, hl.get_size hb]
  have hword := word_eq (b := { b with free }) (hl.sizes b hb).2
  rw [← hword]
  cases free <;> rfl

theorem set_size_eq (hl : Laid P s bs) (hb : b ∈ bs) (hn : n % 2 = 0) (hlt : n < 2 ^ 32) :
    set_size b.start n s = s.store b.start metadata ({ b with size := n } : Block).word := by
  have hmask := and_high hlt (show 1 ≤ 32 by decide)
  have hround : n / 2 ^ 1 * 2 ^ 1 = n := by omega
  rw [set_size, hl.get_status hb, show SIZE_MASK = 2 ^ 32 - 2 ^ 1 from rfl, hmask, hround]
  exact congrArg (s.store b.start metadata) (word_eq (b := { b with size := n }) hn)

theorem word_lt (hl : Laid P s bs) (hb : b ∈ bs) : b.word < 2 ^ 32 := by
  rw [← hl.headers b hb]
  exact load_lt s b.start metadata

/-- The metadata of one block is stored; blocks that it covers then are given up. -/
theorem store (hP : Sites P) (hl : Laid P s bs) {d : Block} {bs' : List Block} (hb : d.start ∈ P)
    (hb' : d ∈ bs') (hsize : MINIMUM_PAYLOAD ≤ d.size ∧ d.size % 2 = 0)
    (htiles : Tiles s.base bs' (s.base + s.size))
    (hothers : ∀ c ∈ bs', c = d ∨ c ∈ bs ∧ c.start ≠ d.start) :
    Laid P (s.store d.start metadata d.word) bs' := by
  have hword : d.word < 2 ^ 32 := by
    have hstop := (htiles.bounds hb').2.trans_lt hl.high
    simp only [Block.stop, metadata_size] at hstop
    simp only [Block.word, status_eq]
    split <;> omega
  constructor
  · exact htiles
  · exact hl.high
  · intro c hc
    rcases hothers c hc with rfl | ⟨hc, -⟩
    · exact hsize
    · exact hl.sizes c hc
  · intro c hc
    rcases hothers c hc with rfl | ⟨hc, hne⟩
    · rw [load_store hP hb hb metadata metadata hword, if_pos ⟨rfl, rfl⟩]
    · rw [load_store hP hb (hl.sites c hc) metadata metadata hword, if_neg fun heq => hne heq.1]
      exact hl.headers c hc
  · intro c hc
    rcases hothers c hc with rfl | ⟨hc, -⟩
    · exact hb
    · exact hl.sites c hc

end Laid

end EquivChecker.Malloc
