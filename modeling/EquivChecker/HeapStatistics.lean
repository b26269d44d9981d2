import EquivChecker.FreeList
import Mathlib.Algebra.BigOperators.Group.List.Basic
import Mathlib.Algebra.Group.Prod
import Mathlib.Data.BitVec
import Mathlib.Tactic.Abel

/-!
# The statistics of the heap

`heap_t` counts used and free blocks and their bytes by hand. The four numbers form a
group, in which the blocks of a heap add up to its statistics.
-/

namespace EquivChecker.Malloc

open Heap

/-- `blocks_used`, `blocks_free`, `bytes_used` and `bytes_free`. -/
abbrev Stats := ℤ × ℤ × Word × Word

def Heap.stats (s : Heap) : Stats := (s.blocks_used, s.blocks_free, s.bytes_used, s.bytes_free)

/-- What a block adds to the statistics. -/
def Block.stats (b : Block) : Stats :=
  if b.free then (0, 1, 0, BitVec.ofNat 32 b.size) else (1, 0, BitVec.ofNat 32 b.size, 0)

/-- The statistics are the sum over the blocks. -/
def Counted (s : Heap) (bs : List Block) : Prop := s.stats = (bs.map Block.stats).sum

/-- Right statistics stay right. -/
def Accounts (s : Heap) (bs : List Block) (t : Heap) (bs' : List Block) : Prop :=
  Counted s bs → Counted t bs'

variable {s t u : Heap} {l m n r bs bs' bs'' : List Block} {b : Block}

theorem Accounts.trans (hst : Accounts s bs t bs') (htu : Accounts t bs' u bs'') : Accounts s bs u bs'' :=
  fun h => htu (hst h)

/-- Nothing that is counted has changed. -/
theorem Accounts.of_stats (h : t.stats = s.stats) (bs : List Block) : Accounts s bs t bs :=
  fun hs => h.trans hs

theorem Block.stats_free (h : b.free = true) : b.stats = (0, 1, 0, BitVec.ofNat 32 b.size) := if_pos h

theorem Block.stats_used (h : b.free = false) : b.stats = (1, 0, BitVec.ofNat 32 b.size, 0) :=
  if_neg (by rw [h]; exact Bool.false_ne_true)

/-- Some blocks are replaced, and the statistics change by the difference. -/
theorem Accounts.replace
    (hst : t.stats = s.stats - (m.map Block.stats).sum + (n.map Block.stats).sum) :
    Accounts s (l ++ (m ++ r)) t (l ++ (n ++ r)) := by
  intro h
  rw [Counted, hst, h]
  simp only [List.map_append, List.sum_append]
  abel

theorem append_stats (h : ℕ) (s : Heap) : (append_free_block h s).stats = s.stats := by
  unfold append_free_block
  dsimp only
  split <;> rfl

theorem remove_stats (h : ℕ) (s : Heap) : (remove_free_block h s).stats = s.stats := by
  unfold remove_free_block
  dsimp only
  split <;> split <;> rfl

theorem store_stats (h v : ℕ) (f : Field) (s : Heap) : (s.store h f v).stats = s.stats := rfl

theorem make_block_stats (h n : ℕ) (s : Heap) : (make_block h STATUS_FREE n s).stats = s.stats := rfl

end EquivChecker.Malloc
