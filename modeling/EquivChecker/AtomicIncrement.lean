import EquivChecker.ExclusiveMonitor
import Mathlib.Algebra.BigOperators.Fin
import Mathlib.Algebra.Order.BigOperators.Group.Finset

/-!
# Increments under one monitor

`atomic_increment` loads the word exclusively, adds one and stores exclusively, until the
store succeeds. A context switch leaves the monitor as it is. So a thread that stands
between its load and its store stores an old value when another thread has stored
meanwhile and the monitor was set once more: that takes a third call.
-/

namespace EquivChecker.AtomicIncrement

open ExclusiveMonitor

/-- The instructions of `atomic_increment`. -/
inductive Pc where
  | ldrex | add | strex | teq | bne
  deriving DecidableEq, Repr

/-- The registers `%0` and `%1` of the inline assembly, the Z flag, and how many calls the thread
has still to return from. -/
structure Thread where
  pc : Pc
  result : BitVec 32
  tmp : BitVec 32
  z : Bool
  left : ℕ
  deriving DecidableEq, Repr

structure State (n : ℕ) where
  cell : Cell
  threads : Fin n → Thread

variable {n : ℕ}

/-- One instruction. A thread that has returned from all calls leaves the word alone. -/
def Thread.exec (t : Thread) (cell : Cell) : Thread × Cell :=
  if t.left = 0 then (t, cell)
  else match t.pc with
    | .ldrex => ({ t with result := cell.ldrex.1, pc := .add }, cell.ldrex.2)
    | .add => ({ t with result := t.result + 1, pc := .strex }, cell)
    | .strex => ({ t with tmp := (cell.strex t.result).1, pc := .teq }, (cell.strex t.result).2)
    | .teq => ({ t with z := t.tmp == 0, pc := .bne }, cell)
    | .bne =>
        if t.z then ({ t with pc := .ldrex, left := t.left - 1 }, cell)
        else ({ t with pc := .ldrex }, cell)

/-- The thread `i` executes its next instruction. -/
def step (s : State n) (i : Fin n) : State n :=
  let e := (s.threads i).exec s.cell
  ⟨e.2, Function.update s.threads i e.1⟩

/-- The threads execute instructions in the given order. -/
def run (s : State n) (order : List (Fin n)) : State n := order.foldl step s

@[simp] theorem run_nil (s : State n) : run s [] = s := rfl

@[simp] theorem run_cons (s : State n) (i : Fin n) (order : List (Fin n)) :
    run s (i :: order) = run (step s i) order := rfl

theorem run_append (s : State n) (order order' : List (Fin n)) :
    run s (order ++ order') = run (run s order) order' := List.foldl_append

/-- Every thread is about to make its calls. -/
structure Initial (calls : Fin n → ℕ) (s : State n) : Prop where
  pc : ∀ i, (s.threads i).pc = .ldrex
  left : ∀ i, (s.threads i).left = calls i

/-- All calls have returned. -/
def Returned (s : State n) : Prop := ∀ i, (s.threads i).left = 0

instance (s : State n) : Decidable (Returned s) := inferInstanceAs (Decidable (∀ _, _))

/-- Whatever the order of the instructions, all calls have an effect. -/
def LosesNoUpdate (calls : Fin n → ℕ) : Prop :=
  ∀ s, Initial calls s → ∀ order : List (Fin n), Returned (run s order) →
    (run s order).cell.word = s.cell.word + BitVec.ofNat 32 (∑ i, calls i)

section Threads

variable {t : Thread} {cell : Cell} {w : BitVec 32}

/-- The current call has stored. -/
def Thread.Stored (t : Thread) : Prop := t.pc = .teq ∧ t.tmp = 0 ∨ t.pc = .bne ∧ t.z = true

instance : Decidable t.Stored := inferInstanceAs (Decidable (_ ∨ _))

/-- The stores that the thread has still to make. -/
def Thread.pending (t : Thread) : ℕ := if t.Stored then t.left - 1 else t.left

/-- If the thread has loaded a value, it is `w`. -/
def Thread.Timely (t : Thread) (w : BitVec 32) : Prop :=
  (t.pc = .add → t.result = w) ∧ (t.pc = .strex → t.result = w + 1)

/-- Only a thread with calls left is inside one. -/
def Thread.Coherent (t : Thread) : Prop := t.pc ≠ .ldrex → 0 < t.left

theorem Thread.Coherent.pending_pos (ht : t.Coherent) (hpc : t.pc = .add ∨ t.pc = .strex) :
    0 < t.pending := by
  have hstored : ¬t.Stored := by
    rcases hpc with hpc | hpc <;> simp [Stored, hpc]
  rw [pending, if_neg hstored]
  exact ht (by rcases hpc with hpc | hpc <;> simp [hpc])

/-- A thread without stores to make holds no loaded value. -/
theorem Thread.Coherent.timely (ht : t.Coherent) (hzero : t.pending = 0) : t.Timely w := by
  refine ⟨fun hpc => ?_, fun hpc => ?_⟩
  · exact absurd hzero (ht.pending_pos (.inl hpc)).ne'
  · exact absurd hzero (ht.pending_pos (.inr hpc)).ne'

theorem Thread.Coherent.exec (ht : t.Coherent) : (t.exec cell).1.Coherent := by
  obtain ⟨pc, result, tmp, z, left⟩ := t
  unfold Thread.exec
  split
  · exact ht
  · rename_i hleft
    have hpos : 0 < left := Nat.pos_of_ne_zero hleft
    cases pc with
    | bne => cases z <;> simp [Coherent]
    | _ => exact fun _ => hpos

/-- Everything one instruction can do to the cell and to the stores that are pending. -/
theorem Thread.exec_cases (ht : t.Coherent) (cell : Cell) :
    let e := t.exec cell
    -- the word and the monitor stay as they are
    (e.2 = cell ∧ e.1.pending = t.pending ∧ ∀ w, t.Timely w → e.1.Timely w) ∨
    -- the load
    (e.2 = ⟨cell.word, true⟩ ∧ e.1.pending = t.pending ∧ 0 < t.pending ∧ e.1.Timely cell.word) ∨
    -- the store that succeeds
    (t.pc = .strex ∧ cell.monitor = true ∧ e.2 = ⟨t.result, false⟩ ∧ e.1.pending + 1 = t.pending ∧
      ∀ w, e.1.Timely w) := by
  obtain ⟨pc, result, tmp, z, left⟩ := t
  by_cases hleft : left = 0
  · exact .inl (by simp [exec, hleft])
  have hpos : 0 < left := Nat.pos_of_ne_zero hleft
  cases pc with
  | ldrex => exact .inr (.inl (by simp [exec, hleft, pending, Stored, Timely, hpos]))
  | add => exact .inl (by simp [exec, hleft, pending, Stored, Timely])
  | strex =>
    cases hm : cell.monitor with
    | false => exact .inl (by simp [exec, hleft, Cell.strex_clear hm, pending, Stored, Timely])
    | true =>
      refine .inr (.inr ?_)
      simp only [exec, hleft, Cell.strex_set hm, pending, Stored, Timely]
      simp
      omega
  | teq => exact .inl (by simp [exec, hleft, pending, Stored, Timely])
  | bne => cases z <;> exact .inl (by simp [exec, hleft, pending, Stored, Timely])

end Threads

section Step

variable {s : State n} {i j : Fin n}

theorem step_self : (step s i).threads i = ((s.threads i).exec s.cell).1 := by simp [step]

theorem step_other (hj : j ≠ i) : (step s i).threads j = s.threads j := by simp [step, hj]

theorem step_cell : (step s i).cell = ((s.threads i).exec s.cell).2 := rfl

/-- The stores that all threads have still to make. -/
def pendings (s : State n) : ℕ := ∑ i, (s.threads i).pending

theorem pendings_step : pendings (step s i) + (s.threads i).pending =
    pendings s + ((s.threads i).exec s.cell).1.pending := by
  have hsame : ∑ j ∈ Finset.univ.erase i, ((step s i).threads j).pending =
      ∑ j ∈ Finset.univ.erase i, (s.threads j).pending :=
    Finset.sum_congr rfl fun j hj => by rw [step_other (Finset.ne_of_mem_erase hj)]
  have hold := Finset.add_sum_erase Finset.univ (fun j => (s.threads j).pending) (Finset.mem_univ i)
  have hnew := Finset.add_sum_erase Finset.univ (fun j => ((step s i).threads j).pending)
    (Finset.mem_univ i)
  rw [hsame, step_self] at hnew
  rw [pendings, pendings, ← hold, ← hnew]
  omega

/-- Every thread that has loaded a value has loaded the one that is there now. -/
def Calm (s : State n) : Prop := ∀ i, (s.threads i).Timely s.cell.word

/-- At most one thread has stores to make. -/
def Alone (s : State n) : Prop := ∀ i j, 0 < (s.threads i).pending → 0 < (s.threads j).pending → i = j

/-- Old values are not stored as long as the monitor is clear and only one thread may set it. -/
def Safe (s : State n) : Prop :=
  Calm s ∧ (pendings s ≤ 2 ∨ Alone s) ∨ s.cell.monitor = false ∧ Alone s

theorem alone_of_le (hle : pendings s ≤ 1) : Alone s := by
  intro i j hi hj
  by_contra hij
  have hpair := Finset.sum_le_univ_sum_of_nonneg (s := {i, j}) (f := fun l => (s.threads l).pending)
    fun _ => Nat.zero_le _
  rw [Finset.sum_pair hij] at hpair
  have hsum : pendings s = ∑ l, (s.threads l).pending := rfl
  omega

theorem Alone.step (ha : Alone s)
    (hle : ((s.threads i).exec s.cell).1.pending ≤ (s.threads i).pending) : Alone (step s i) := by
  have hback : ∀ j, 0 < ((AtomicIncrement.step s i).threads j).pending → 0 < (s.threads j).pending := by
    intro j hj
    by_cases hji : j = i
    · subst hji
      rw [step_self] at hj
      omega
    · rwa [step_other hji] at hj
  exact fun j l hj hl => ha j l (hback j hj) (hback l hl)

theorem Calm.step {w : BitVec 32} (hw : (AtomicIncrement.step s i).cell.word = w)
    (hi : ((s.threads i).exec s.cell).1.Timely w) (hothers : ∀ j, j ≠ i → (s.threads j).Timely w) :
    Calm (step s i) := by
  intro j
  rw [hw]
  by_cases hji : j = i
  · subst hji
    rwa [step_self]
  · rw [step_other hji]
    exact hothers j hji

/-- The word is `w` as soon as all stores have been made. -/
structure Invariant (w : BitVec 32) (s : State n) : Prop where
  coherent : ∀ i, (s.threads i).Coherent
  counted : s.cell.word + BitVec.ofNat 32 (pendings s) = w
  safe : Safe s

theorem Invariant.step {w : BitVec 32} (h : Invariant w s) (i : Fin n) : Invariant w (step s i) := by
  have hcoherent : ∀ j, ((AtomicIncrement.step s i).threads j).Coherent := by
    intro j
    by_cases hji : j = i
    · subst hji
      rw [step_self]
      exact (h.coherent j).exec
    · rw [step_other hji]
      exact h.coherent j
  have hpendings := pendings_step (s := s) (i := i)
  have hcell := step_cell (s := s) (i := i)
  rcases Thread.exec_cases (h.coherent i) s.cell with
    ⟨hsame, hpend, htimely⟩ | ⟨hload, hpend, hpos, htimely⟩ | ⟨hpc, hm, hstore, hpend, htimely⟩
  · have heq : pendings (AtomicIncrement.step s i) = pendings s := by omega
    rw [hsame] at hcell
    refine ⟨hcoherent, by rw [hcell, heq, h.counted], ?_⟩
    rcases h.safe with ⟨hcalm, hfew⟩ | ⟨hclear, halone⟩
    · exact .inl ⟨.step (by rw [hcell]) (htimely _ (hcalm i)) fun j _ => hcalm j,
        hfew.imp (heq.trans_le ·) (·.step hpend.le)⟩
    · exact .inr ⟨by rw [hcell, hclear], halone.step hpend.le⟩
  · have heq : pendings (AtomicIncrement.step s i) = pendings s := by omega
    rw [hload] at hcell
    refine ⟨hcoherent, by rw [hcell, heq, h.counted], .inl ?_⟩
    rcases h.safe with ⟨hcalm, hfew⟩ | ⟨hclear, halone⟩
    · exact ⟨.step (by rw [hcell]) htimely fun j _ => hcalm j,
        hfew.imp (heq.trans_le ·) (·.step hpend.le)⟩
    · -- no other thread has stores to make, so none has loaded a value
      refine ⟨.step (by rw [hcell]) htimely fun j hji => (h.coherent j).timely ?_,
        .inr (halone.step hpend.le)⟩
      by_contra hj
      exact hji (halone j i (Nat.pos_of_ne_zero hj) hpos)
  · rcases h.safe with ⟨hcalm, hfew⟩ | ⟨hclear, -⟩
    · have hone : pendings (AtomicIncrement.step s i) + 1 = pendings s := by omega
      have hresult : (s.threads i).result = s.cell.word + 1 := (hcalm i).2 hpc
      rw [hstore] at hcell
      refine ⟨hcoherent, ?_, .inr ⟨by rw [hcell], ?_⟩⟩
      · have hcounted := h.counted
        rw [← hone, BitVec.ofNat_add] at hcounted
        rw [hcell, hresult, ← hcounted, BitVec.add_comm (BitVec.ofNat 32 _), ← BitVec.add_assoc]
        rfl
      · rcases hfew with hfew | halone
        · exact alone_of_le (by omega)
        · exact halone.step (by omega)
    · rw [hm] at hclear
      cases hclear

theorem Invariant.run {w : BitVec 32} (h : Invariant w s) (order : List (Fin n)) :
    Invariant w (run s order) := by
  induction order generalizing s with
  | nil => exact h
  | cons i order ih => exact ih (h.step i)

end Step

section Calls

variable {s : State n} {calls : Fin n → ℕ} {i j : Fin n}

theorem Initial.pending (hs : Initial calls s) (i : Fin n) : (s.threads i).pending = calls i := by
  simp [Thread.pending, Thread.Stored, hs.pc i, hs.left i]

theorem Initial.pendings (hs : Initial calls s) : pendings s = ∑ i, calls i :=
  Finset.sum_congr rfl fun i _ => hs.pending i

theorem Initial.invariant (hs : Initial calls s)
    (hcalls : (∀ i j, 0 < calls i → 0 < calls j → i = j) ∨ ∑ i, calls i ≤ 2) :
    Invariant (s.cell.word + BitVec.ofNat 32 (∑ i, calls i)) s := by
  refine ⟨fun i hpc => absurd (hs.pc i) hpc, by rw [hs.pendings], .inl ⟨fun i => ?_, ?_⟩⟩
  · simp [Thread.Timely, hs.pc i]
  · rw [hs.pendings]
    refine hcalls.symm.imp_right fun hone i j hi hj => hone i j ?_ ?_
    · rwa [hs.pending] at hi
    · rwa [hs.pending] at hj

theorem Returned.pendings (hs : Returned s) : pendings s = 0 :=
  Finset.sum_eq_zero fun i _ => by simp [Thread.pending, hs i]

end Calls

section Alone

variable {t : Thread} {cell : Cell} {left k : ℕ} {w : BitVec 32} {s : State n} {calls : Fin n → ℕ}
  {i j a x y : Fin n}

/-- What a thread that executes `k` instructions without a switch does. -/
def Thread.execs (t : Thread) (cell : Cell) : ℕ → Thread × Cell
  | 0 => (t, cell)
  | k + 1 => ((t.exec cell).1).execs (t.exec cell).2 k

theorem Thread.execs_add (t : Thread) (cell : Cell) (j k : ℕ) :
    t.execs cell (j + k) = ((t.execs cell j).1).execs (t.execs cell j).2 k := by
  induction j generalizing t cell with
  | zero => rw [Nat.zero_add, execs]
  | succ j ih => rw [Nat.add_right_comm, execs, ih, execs]

theorem run_alone (s : State n) (k : ℕ) (i : Fin n) : ∃ T, run s (List.replicate k i) = T ∧
    T.cell = ((s.threads i).execs s.cell k).2 ∧ T.threads i = ((s.threads i).execs s.cell k).1 ∧
    ∀ j, j ≠ i → T.threads j = s.threads j := by
  induction k generalizing s with
  | zero => exact ⟨s, rfl, rfl, rfl, fun _ _ => rfl⟩
  | succ k ih =>
    obtain ⟨T, hrun, hcell, hself, hother⟩ := ih (step s i)
    rw [step_self, step_cell] at hcell hself
    exact ⟨T, hrun, hcell, hself, fun j hj => (hother j hj).trans (step_other hj)⟩

/-- A thread before its next call. -/
def Thread.Entering (t : Thread) (left : ℕ) : Prop := t.pc = .ldrex ∧ t.left = left

/-- A thread that has just loaded `w`. -/
def Thread.Holds (t : Thread) (w : BitVec 32) (left : ℕ) : Prop :=
  t.pc = .add ∧ t.result = w ∧ t.left = left

theorem Thread.Entering.load (ht : t.Entering (left + 1)) (cell : Cell) :
    (t.execs cell 1).2 = ⟨cell.word, true⟩ ∧ ((t.execs cell 1).1).Holds cell.word (left + 1) := by
  obtain ⟨hpc, hleft⟩ := ht
  simp [execs, exec, Holds, hpc, hleft]

theorem Thread.Holds.store (ht : t.Holds w (left + 1)) (hm : cell.monitor = true) :
    (t.execs cell 4).2 = ⟨w + 1, false⟩ ∧ ((t.execs cell 4).1).Entering left := by
  obtain ⟨hpc, hresult, hleft⟩ := ht
  simp [execs, exec, Cell.strex_set hm, Entering, hpc, hresult, hleft]

/-- The store fails, and the call starts again. -/
theorem Thread.Holds.retry (ht : t.Holds w (left + 1)) (hm : cell.monitor = false) :
    (t.execs cell 4).2 = cell ∧ ((t.execs cell 4).1).Entering (left + 1) := by
  obtain ⟨hpc, hresult, hleft⟩ := ht
  simp [execs, exec, Cell.strex_clear hm, Entering, hpc, hleft]

theorem Thread.Entering.call (ht : t.Entering (left + 1)) (cell : Cell) :
    (t.execs cell 5).2 = ⟨cell.word + 1, false⟩ ∧ ((t.execs cell 5).1).Entering left := by
  obtain ⟨hcell, hholds⟩ := ht.load cell
  have hmonitor : (t.execs cell 1).2.monitor = true := by rw [hcell]
  rw [show 5 = 1 + 4 from rfl, execs_add]
  exact hholds.store hmonitor

theorem Initial.entering (hs : Initial calls s) (i : Fin n) : (s.threads i).Entering (calls i) :=
  ⟨hs.pc i, hs.left i⟩

theorem sum_pred (hi : 0 < calls i) :
    ∑ j, Function.update calls i (calls i - 1) j + 1 = ∑ j, calls j := by
  have hold := Finset.add_sum_erase Finset.univ calls (Finset.mem_univ i)
  rw [Finset.sum_update_of_mem (Finset.mem_univ i), ← hold, ← Finset.erase_eq]
  omega

/-- Threads that run one after the other lose no update. -/
theorem Initial.finish (hs : Initial calls s) : ∃ order, Returned (run s order) ∧
    (run s order).cell.word = s.cell.word + BitVec.ofNat 32 (∑ i, calls i) := by
  induction hsum : ∑ i, calls i generalizing s calls with
  | zero =>
    refine ⟨[], fun i => ?_, by simp⟩
    rw [run_nil, hs.left i]
    exact (Finset.sum_eq_zero_iff.mp hsum) i (Finset.mem_univ i)
  | succ m ih =>
    obtain ⟨i, -, hi⟩ := Finset.exists_ne_zero_of_sum_ne_zero (s := Finset.univ) (f := calls) (by omega)
    have hpos : 0 < calls i := Nat.pos_of_ne_zero hi
    obtain ⟨T, hrun, hcell, hself, hother⟩ := run_alone s 5 i
    have hentering := hs.entering i
    rw [← Nat.sub_add_cancel hpos] at hentering
    obtain ⟨hword, hentered⟩ := hentering.call s.cell
    rw [← hcell] at hword
    rw [← hself] at hentered
    have hT : Initial (Function.update calls i (calls i - 1)) T := by
      constructor
      · intro j
        by_cases hj : j = i
        · rw [hj, hentered.1]
        · rw [hother j hj, hs.pc j]
      · intro j
        by_cases hj : j = i
        · rw [hj, hentered.2, Function.update_self]
        · rw [hother j hj, hs.left j, Function.update_of_ne hj]
    have hless := sum_pred hpos
    obtain ⟨order, hreturned, hlast⟩ := ih hT (by omega)
    refine ⟨List.replicate 5 i ++ order, ?_, ?_⟩
    · rwa [run_append, hrun]
    · rw [run_append, hrun, hlast, hword, BitVec.ofNat_add, BitVec.add_assoc,
        BitVec.add_comm (BitVec.ofNat 32 m)]
      rfl

/-- While `a` stands between its load and its store, `x` makes a call and `y` begins one. -/
theorem Initial.lose (hs : Initial calls s) (ha : 0 < calls a) (hx : 0 < calls x) (hxa : x ≠ a)
    (hy : 0 < Function.update calls x (calls x - 1) y) (hya : y ≠ a) : ¬LosesNoUpdate calls := by
  have hxs := hs.entering x
  have has := hs.entering a
  rw [← Nat.sub_add_cancel hx] at hxs
  rw [← Nat.sub_add_cancel ha] at has
  -- `a` loads the word
  obtain ⟨s₁, hrun₁, hcell₁, ha₁, hother₁⟩ := run_alone s 1 a
  have hholds := (has.load s.cell).2
  rw [← ha₁] at hholds
  have hword₁ : s₁.cell.word = s.cell.word := by rw [hcell₁, (has.load s.cell).1]
  -- `x` makes a whole call
  obtain ⟨s₂, hrun₂, hcell₂, hx₂, hother₂⟩ := run_alone s₁ 5 x
  rw [hother₁ x hxa] at hcell₂ hx₂
  rw [(hxs.call s₁.cell).1, hword₁] at hcell₂
  have henter₂ : ∀ j, j ≠ a → (s₂.threads j).Entering (Function.update calls x (calls x - 1) j) := by
    intro j hja
    by_cases hjx : j = x
    · rw [hjx, hx₂, Function.update_self]
      exact (hxs.call s₁.cell).2
    · rw [hother₂ j hjx, hother₁ j hja, Function.update_of_ne hjx]
      exact hs.entering j
  -- `y` loads the word and sets the monitor
  have hys := henter₂ y hya
  rw [← Nat.sub_add_cancel hy] at hys
  obtain ⟨s₃, hrun₃, hcell₃, hy₃, hother₃⟩ := run_alone s₂ 1 y
  have hholds₃ := (hys.load s₂.cell).2
  rw [← hy₃] at hholds₃
  rw [(hys.load s₂.cell).1] at hcell₃
  -- `a` stores what it computed from the old value
  obtain ⟨s₄, hrun₄, hcell₄, ha₄, hother₄⟩ := run_alone s₃ 4 a
  rw [hother₃ a hya.symm, hother₂ a hxa.symm] at hcell₄ ha₄
  have hset : s₃.cell.monitor = true := by rw [hcell₃]
  have hstore := hholds.store hset
  rw [hstore.1] at hcell₄
  -- the store of `y` fails
  obtain ⟨s₅, hrun₅, hcell₅, hy₅, hother₅⟩ := run_alone s₄ 4 y
  rw [hother₄ y hya] at hcell₅ hy₅
  have hclear : s₄.cell.monitor = false := by rw [hcell₄]
  have hretry := hholds₃.retry hclear
  rw [hretry.1, hcell₄] at hcell₅
  have henter₅ : ∀ j, (s₅.threads j).Entering
      (Function.update (Function.update calls x (calls x - 1)) a (calls a - 1) j) := by
    intro j
    by_cases hja : j = a
    · rw [hja, hother₅ a hya.symm, ha₄, Function.update_self]
      exact hstore.2
    · rw [Function.update_of_ne hja]
      by_cases hjy : j = y
      · rw [hjy, hy₅, ← Nat.sub_add_cancel hy]
        exact hretry.2
      · rw [hother₅ j hjy, hother₄ j hja, hother₃ j hjy]
        exact henter₂ j hja
  obtain ⟨order, hreturned, hlast⟩ :=
    Initial.finish (s := s₅) ⟨fun j => (henter₅ j).1, fun j => (henter₅ j).2⟩
  have hrun : run s (List.replicate 1 a ++ (List.replicate 5 x ++ (List.replicate 1 y ++
      (List.replicate 4 a ++ (List.replicate 4 y ++ order))))) = run s₅ order := by
    simp only [run_append, hrun₁, hrun₂, hrun₃, hrun₄, hrun₅]
  intro hcalls
  have hall := hcalls s hs _ (hrun.symm ▸ hreturned)
  -- two calls have stored the same value
  have hsum := sum_pred hx
  have hpos : 0 < Function.update calls x (calls x - 1) a := by
    rwa [Function.update_of_ne hxa.symm]
  have hsum' := sum_pred hpos
  rw [Function.update_of_ne hxa.symm] at hsum'
  rw [hrun, hlast, hcell₅, ← hsum, ← hsum', BitVec.ofNat_add, BitVec.ofNat_add] at hall
  bv_omega

end Alone

/-- Of three calls by two or more threads, two are made by others than some third one. -/
theorem exists_third {calls : Fin n → ℕ} {i j : Fin n} (hi : 0 < calls i) (hj : 0 < calls j) (hij : i ≠ j)
    (hsum : 2 < ∑ l, calls l) : ∃ a x y, 0 < calls a ∧ 0 < calls x ∧ x ≠ a ∧
      0 < Function.update calls x (calls x - 1) y ∧ y ≠ a := by
  by_cases hi2 : 2 ≤ calls i
  · refine ⟨j, i, i, hj, hi, hij, ?_, hij⟩
    rw [Function.update_self]
    omega
  by_cases hj2 : 2 ≤ calls j
  · refine ⟨i, j, j, hi, hj, hij.symm, ?_, hij.symm⟩
    rw [Function.update_self]
    omega
  by_contra hnone
  have hzero : ∀ l ∈ Finset.univ, l ∉ ({i, j} : Finset (Fin n)) → calls l = 0 := by
    intro l _ hl
    rw [Finset.mem_insert, Finset.mem_singleton, not_or] at hl
    by_contra hpos
    refine hnone ⟨i, j, l, hi, hj, hij.symm, ?_, hl.1⟩
    rw [Function.update_of_ne hl.2]
    exact Nat.pos_of_ne_zero hpos
  have hpair := Finset.sum_subset (Finset.subset_univ {i, j}) hzero
  rw [Finset.sum_pair hij] at hpair
  omega

/-- No update is lost, whatever the order, exactly if one thread makes all calls or there are at
most two. -/
theorem losesNoUpdate_iff (calls : Fin n → ℕ) : LosesNoUpdate calls ↔
    (∀ i j, 0 < calls i → 0 < calls j → i = j) ∨ ∑ i, calls i ≤ 2 := by
  constructor
  · intro hcalls
    by_contra hnot
    push Not at hnot
    obtain ⟨⟨i, j, hi, hj, hij⟩, hsum⟩ := hnot
    let s : State n := ⟨⟨0, false⟩, fun i => ⟨.ldrex, 0, 0, false, calls i⟩⟩
    have hs : Initial calls s := ⟨fun _ => rfl, fun _ => rfl⟩
    obtain ⟨a, x, y, ha, hx, hxa, hy, hya⟩ := exists_third hi hj hij hsum
    exact hs.lose ha hx hxa hy hya hcalls
  · intro hcond s hs order hreturned
    have hinv := (hs.invariant hcond).run order
    have hcounted := hinv.counted
    rw [hreturned.pendings] at hcounted
    simpa using hcounted

/-- One thread increments twice, the other once, and the word ends at two. -/
theorem increments_lost : ¬LosesNoUpdate ![1, 2] := by
  intro hcalls
  let s : State 2 := ⟨⟨0, false⟩, fun i => ⟨.ldrex, 0, 0, false, ![1, 2] i⟩⟩
  have hs : Initial ![1, 2] s := ⟨fun _ => rfl, fun _ => rfl⟩
  have hrun := hcalls s hs [0, 1, 1, 1, 1, 1, 1, 0, 0, 0, 0, 1, 1, 1, 1, 1, 1, 1, 1, 1]
    (by decide)
  exact absurd hrun (by decide)

end EquivChecker.AtomicIncrement
