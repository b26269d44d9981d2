import Mathlib.Data.BitVec

/-!
# A word of memory under one CPU-wide exclusive monitor

Load-exclusive sets the monitor. Store-exclusive stores and answers zero exactly
when the monitor is set, and clears it. Nothing else touches the monitor; a
context switch without a clear-exclusive instruction leaves it as it is.
-/

namespace EquivChecker.ExclusiveMonitor

/-- The word the exclusive instructions address, and the monitor of the CPU. -/
structure Cell where
  word : BitVec 32
  monitor : Bool
  deriving DecidableEq, Repr

def Cell.ldrex (c : Cell) : BitVec 32 × Cell := (c.word, { c with monitor := true })

def Cell.strex (c : Cell) (v : BitVec 32) : BitVec 32 × Cell :=
  if c.monitor then (0, ⟨v, false⟩) else (1, c)

/-- A plain store does not consult the monitor. -/
def Cell.str (c : Cell) (v : BitVec 32) : Cell := { c with word := v }

@[simp] theorem Cell.ldrex_value (c : Cell) : c.ldrex.1 = c.word := rfl
@[simp] theorem Cell.ldrex_cell (c : Cell) : c.ldrex.2 = ⟨c.word, true⟩ := rfl

theorem Cell.strex_set {c : Cell} (h : c.monitor = true) (v : BitVec 32) :
    c.strex v = (0, ⟨v, false⟩) := by simp [strex, h]

theorem Cell.strex_clear {c : Cell} (h : c.monitor = false) (v : BitVec 32) :
    c.strex v = (1, c) := by simp [strex, h]

end EquivChecker.ExclusiveMonitor
