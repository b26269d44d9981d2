import Mathlib.Data.BitVec

/-!
# Words, memory and failures
-/

namespace EquivChecker

abbrev Word := BitVec 32
abbrev Addr := BitVec 32
abbrev Mem := Addr → BitVec 8

/-- How the checker stops without a result. -/
inductive Fault where
  | panic (msg : String)
  | nullDeref
  | outOfBounds
  | spins
  deriving DecidableEq, Repr

/-- A computation that ends well has passed its first part. -/
theorem bind_ok_iff {ε α β : Type} {x : Except ε α} {f : α → Except ε β} {b : β} :
    x >>= f = .ok b ↔ ∃ a, x = .ok a ∧ f a = .ok b := by
  cases x with
  | error e => simp [bind, Except.bind]
  | ok a => simp [bind, Except.bind]

end EquivChecker
