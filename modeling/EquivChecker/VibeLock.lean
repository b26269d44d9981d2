import EquivChecker.ExclusiveMonitor
import Mathlib.Data.Fin.Basic
import Mathlib.Logic.Function.Basic

/-!
# The vibe lock, one instruction at a time

`secure_vibes` spins on `atomic_compare_and_swap(cur_vibes, UNLOCKED, LOCKED)`,
whose four instructions are separate steps here. The checker may switch threads
between any two of them, and its switch path executes no clear-exclusive, so the
monitor set by one thread is still set when another one stores.
-/

namespace EquivChecker.VibeLock
open ExclusiveMonitor

def LOCKED : BitVec 32 := 1
def UNLOCKED : BitVec 32 := 0

/-- The next instruction of a thread that loops over `secure_vibes`, its critical
section and `release_vibes`. -/
inductive Pc where
  | mov | ldrex | teq | strexeq | test | yield | critical | release
  deriving DecidableEq, Repr

/-- What one instruction of the critical section does to the monitor. The critical
section may use exclusive accesses of its own, on other words. -/
inductive Critical where
  | plain | ldrex | strex | leave
  deriving DecidableEq, Repr

/-- The registers `%0` and `%1` of the inline assembly, and the Z flag. -/
structure Regs where
  pc : Pc
  result : BitVec 32
  status : BitVec 32
  z : Bool
  deriving DecidableEq, Repr

structure State (n : ℕ) where
  cell : Cell
  regs : Fin n → Regs

variable {n : ℕ}

/-- One instruction of a thread on the lock word. `c` is what the critical section
does, and is read only there. -/
def Regs.exec (r : Regs) (cell : Cell) (c : Critical) : Regs × Cell :=
  match r.pc with
  | .mov => ({ r with status := 1, pc := .ldrex }, cell)
  | .ldrex => ({ r with result := cell.ldrex.1, pc := .teq }, cell.ldrex.2)
  | .teq => ({ r with z := r.result == UNLOCKED, pc := .strexeq }, cell)
  | .strexeq =>
      if r.z then
        ({ r with status := (cell.strex LOCKED).1, pc := .test }, (cell.strex LOCKED).2)
      else ({ r with pc := .test }, cell)
  | .test => ({ r with pc := if r.status ≠ 0 then .yield else .critical }, cell)
  | .yield => ({ r with pc := .mov }, cell)
  | .critical => match c with
      | .plain => (r, cell)
      | .ldrex => (r, { cell with monitor := true })
      | .strex => (r, { cell with monitor := false })
      | .leave => ({ r with pc := .release }, cell)
  | .release => ({ r with pc := .mov }, cell.str UNLOCKED)

def step (s : State n) (t : Fin n × Critical) : State n :=
  let e := (s.regs t.1).exec s.cell t.2
  ⟨e.2, Function.update s.regs t.1 e.1⟩

def run (s : State n) (ts : List (Fin n × Critical)) : State n := ts.foldl step s

@[simp] theorem run_nil (s : State n) : run s [] = s := rfl

@[simp] theorem run_cons (s : State n) (t : Fin n × Critical) (ts : List (Fin n × Critical)) :
    run s (t :: ts) = run (step s t) ts := rfl

theorem run_append (s : State n) (ts us : List (Fin n × Critical)) :
    run s (ts ++ us) = run (run s ts) us := List.foldl_append

/-- After `vibe_init`, before any thread has entered `secure_vibes`. -/
structure Initial (s : State n) : Prop where
  unlocked : s.cell.word = UNLOCKED
  fresh : ∀ i, (s.regs i).pc = .mov

/-- Between a returned `secure_vibes` and the start of `release_vibes`. -/
def Inside (s : State n) (i : Fin n) : Prop := (s.regs i).pc = .critical

instance (s : State n) (i : Fin n) : Decidable (Inside s i) := inferInstanceAs (Decidable (_ = _))

/-- At most one thread inside, after any schedule in which only the threads in `loads`
use load-exclusives of their own inside the critical section. -/
def MutualExclusion (n : ℕ) (loads : Fin n → Prop) : Prop :=
  ∀ s : State n, Initial s → ∀ ts : List (Fin n × Critical),
    (∀ t ∈ ts, t.2 = .ldrex → loads t.1) →
      ∀ i j, Inside (run s ts) i → Inside (run s ts) j → i = j

/-- The thread would store if the monitor were set. -/
def Armed (r : Regs) : Prop := (r.pc = .teq ∨ r.pc = .strexeq) ∧ r.result = UNLOCKED

/-- The thread has taken the lock and not yet given it back. -/
def Holding (r : Regs) : Prop :=
  r.pc = .critical ∨ r.pc = .release ∨ (r.pc = .test ∧ r.status = 0)

/-- Registers agree with the instructions already executed. -/
def Coherent (r : Regs) : Prop :=
  ((r.pc = .ldrex ∨ r.pc = .teq ∨ r.pc = .strexeq) → r.status = 1) ∧
    (r.pc = .strexeq → r.z = (r.result == UNLOCKED))

structure Invariant (s : State n) : Prop where
  coherent : ∀ i, Coherent (s.regs i)
  exclusive : ∀ i j, Holding (s.regs i) → Holding (s.regs j) → i = j
  locked : ∀ i, Holding (s.regs i) → s.cell.word = LOCKED
  /-- While the lock is held no armed thread can store. -/
  disarmed : ∀ i j, Holding (s.regs i) → Armed (s.regs j) → s.cell.monitor = false

theorem Initial.invariant {s : State n} (h : Initial s) : Invariant s := by
  constructor
  · intro i
    simp [Coherent, h.fresh i]
  all_goals
    intro i
    simp [Holding, h.fresh i]

/-- Everything one instruction can do to the lock, the monitor and the two predicates
of the executing thread. -/
theorem Regs.exec_cases (r : Regs) (cell : Cell) (c : Critical) (h : Coherent r) :
    let e := r.exec cell c
    -- the lock keeps its value and the monitor is at most cleared
    (e.2.word = cell.word ∧ (e.2.monitor = cell.monitor ∨ e.2.monitor = false) ∧
      (Holding e.1 → Holding r) ∧ (Armed e.1 → Armed r)) ∨
    -- the load-exclusive of the lock word
    (e.2 = ⟨cell.word, true⟩ ∧ ¬Holding e.1 ∧ (Armed e.1 → cell.word = UNLOCKED)) ∨
    -- a load-exclusive inside the critical section
    (Holding r ∧ c = .ldrex ∧ e = (r, ⟨cell.word, true⟩)) ∨
    -- the store-exclusive that takes the lock
    (Armed r ∧ cell.monitor = true ∧ e.2 = ⟨LOCKED, false⟩ ∧ ¬Armed e.1) ∨
    -- the store of `release_vibes`
    (Holding r ∧ e.2 = ⟨UNLOCKED, cell.monitor⟩ ∧ ¬Holding e.1 ∧ ¬Armed e.1) := by
  obtain ⟨pc, result, status, z⟩ := r
  cases pc with
  | strexeq =>
    obtain ⟨hs, hz⟩ := h
    have hs' : status = 1 := hs (by simp)
    have hz' : z = (result == UNLOCKED) := hz rfl
    cases hm : cell.monitor <;> cases z <;>
      simp_all [exec, Cell.strex, Armed, Holding]
  | critical => cases c <;> simp [exec, Holding, Armed]
  | test =>
    by_cases hs : status = 0#32 <;> simp [exec, Holding, Armed, hs]
  | _ => simp [exec, Holding, Armed, Cell.str]

theorem Coherent.exec {r : Regs} (h : Coherent r) (cell : Cell) (c : Critical) :
    Coherent (r.exec cell c).1 := by
  obtain ⟨pc, result, status, z⟩ := r
  cases pc with
  | strexeq => cases z <;> simp [Regs.exec, Coherent]
  | critical => cases c <;> simp [Regs.exec, Coherent]
  | test => by_cases hs : status = 0#32 <;> simp [Regs.exec, Coherent, hs]
  | _ => simp_all [Regs.exec, Coherent]

/-- Any two different threads are all the threads there are, and neither uses a
load-exclusive inside its critical section. -/
def Uncontended (loads : Fin n → Prop) : Prop :=
  ∀ i j : Fin n, i ≠ j → (∀ t, t = i ∨ t = j) ∧ ¬loads i

section Step
variable {s : State n} {t : Fin n × Critical} {loads : Fin n → Prop}

theorem step_self : (step s t).regs t.1 = ((s.regs t.1).exec s.cell t.2).1 := by simp [step]

theorem step_other {i : Fin n} (h : i ≠ t.1) : (step s t).regs i = s.regs i := by
  simp [step, h]

theorem step_cell : (step s t).cell = ((s.regs t.1).exec s.cell t.2).2 := rfl

theorem inside_step_of_ne {i : Fin n} (h : i ≠ t.1) : Inside (step s t) i ↔ Inside s i := by
  rw [Inside, Inside, step_other h]

theorem not_inside_leave {i : Fin n} (h : Inside s i) : ¬Inside (step s (i, .leave)) i := by
  have hpc : (s.regs i).pc = .critical := h
  intro hi
  rw [Inside, step_self, Regs.exec, hpc] at hi
  cases hi

/-- A predicate that the executing thread can only lose held of everybody before. -/
theorem step_mono {P : Regs → Prop} (h : P ((s.regs t.1).exec s.cell t.2).1 → P (s.regs t.1))
    {i : Fin n} (hi : P ((step s t).regs i)) : P (s.regs i) := by
  by_cases he : i = t.1
  · subst he
    exact h (step_self ▸ hi)
  · rwa [step_other he] at hi

theorem Invariant.step (hn : Uncontended loads) (h : Invariant s)
    (ht : t.2 = .ldrex → loads t.1) :
    Invariant (step s t) := by
  have hcoh : ∀ i, Coherent ((VibeLock.step s t).regs i) := by
    intro i
    by_cases he : i = t.1
    · subst he
      rw [step_self]
      exact (h.coherent t.1).exec s.cell t.2
    · rw [step_other he]
      exact h.coherent i
  rcases (s.regs t.1).exec_cases s.cell t.2 (h.coherent t.1) with
    ⟨hw, hm, hH, hA⟩ | ⟨hc, hH, hA⟩ | ⟨hr, hl, he⟩ | ⟨hr, hm, hc, hA⟩ | ⟨hr, hc, hH, hA⟩
  · refine ⟨hcoh, fun i j hi hj => h.exclusive i j (step_mono hH hi) (step_mono hH hj), ?_, ?_⟩
    · intro i hi
      exact hw.trans (h.locked i (step_mono hH hi))
    · intro i j hi hj
      have hclear := h.disarmed i j (step_mono hH hi) (step_mono hA hj)
      rcases hm with hm | hm
      · exact hm.trans hclear
      · exact hm
  · have hH' : Holding ((s.regs t.1).exec s.cell t.2).1 → Holding (s.regs t.1) := fun h => absurd h hH
    refine ⟨hcoh, fun i j hi hj => h.exclusive i j (step_mono hH' hi) (step_mono hH' hj), ?_, ?_⟩
    · intro i hi
      rw [step_cell, hc]
      exact h.locked i (step_mono hH' hi)
    · -- the loading thread saw the lock taken, and there is no third thread
      intro i j hi hj
      have hit : i ≠ t.1 := by
        rintro rfl
        exact hH (step_self ▸ hi)
      have hlocked := h.locked i (step_mono hH' hi)
      have hjt : j ≠ t.1 := by
        rintro rfl
        have hu := hA (step_self ▸ hj)
        rw [hlocked] at hu
        exact absurd hu (by decide)
      have hji : j ≠ i := by
        rintro rfl
        rw [step_other hit] at hi hj
        rcases hi with hi | hi | hi <;> rcases hj.1 with hj | hj <;> simp_all
      rcases (hn i t.1 hit).1 j with rfl | rfl
      · exact absurd rfl hji
      · exact absurd rfl hjt
  · -- only a lone thread may load exclusively inside its critical section
    have hone : ∀ j, j = t.1 := by
      intro j
      by_contra hj
      exact (hn t.1 j (Ne.symm hj)).2 (ht hl)
    have hH' : Holding ((s.regs t.1).exec s.cell t.2).1 → Holding (s.regs t.1) := fun _ => hr
    refine ⟨hcoh, fun i j _ _ => (hone i).trans (hone j).symm, ?_, ?_⟩
    · intro i hi
      rw [step_cell, he]
      exact h.locked i (step_mono hH' hi)
    · intro i j hi hj
      rw [hone j, step_self, he] at hj
      rcases hr with hr | hr | hr <;> rcases hj.1 with hj | hj <;> simp_all
  · -- an armed thread found the monitor set, so nobody was holding
    have hnone : ∀ i, ¬Holding (s.regs i) := by
      intro i hi
      have := h.disarmed i t.1 hi hr
      simp [hm] at this
    have hi' : ∀ i, Holding ((VibeLock.step s t).regs i) → i = t.1 := by
      intro i hi
      by_contra hne
      rw [step_other hne] at hi
      exact hnone i hi
    refine ⟨hcoh, fun i j hi hj => (hi' i hi).trans (hi' j hj).symm, ?_, ?_⟩
    · intro i _
      rw [step_cell, hc]
    · intro i j _ _
      rw [step_cell, hc]
  · have hH' : Holding ((s.regs t.1).exec s.cell t.2).1 → Holding (s.regs t.1) := fun _ => hr
    have hnone : ∀ i, ¬Holding ((VibeLock.step s t).regs i) := by
      intro i hi
      have ht := h.exclusive i t.1 (step_mono hH' hi) hr
      subst ht
      exact hH (step_self ▸ hi)
    exact ⟨hcoh, fun i _ hi => absurd hi (hnone i), fun i hi => absurd hi (hnone i),
      fun i _ hi => absurd hi (hnone i)⟩

theorem Invariant.run (hn : Uncontended loads) {ts : List (Fin n × Critical)}
    (hts : ∀ t ∈ ts, t.2 = .ldrex → loads t.1) (h : Invariant s) : Invariant (run s ts) := by
  induction ts generalizing s with
  | nil => exact h
  | cons t ts ih =>
    exact ih (fun u hu => hts u (List.mem_cons_of_mem t hu))
      (h.step hn (hts t List.mem_cons_self))

end Step

theorem Invariant.inside {s : State n} (h : Invariant s) {i j : Fin n}
    (hi : Inside s i) (hj : Inside s j) : i = j := h.exclusive i j (.inl hi) (.inl hj)

theorem uncontended_iff (loads : Fin n → Prop) :
    Uncontended loads ↔ n ≤ 1 ∨ n = 2 ∧ ∀ i, ¬loads i := by
  constructor
  · intro h
    by_cases hn : n ≤ 1
    · exact .inl hn
    have h2 : n = 2 := by
      by_contra hn2
      have h3 : 2 < n := by omega
      have := (h ⟨0, by omega⟩ ⟨1, by omega⟩ (by simp)).1 ⟨2, h3⟩
      simp at this
    subst h2
    refine .inr ⟨rfl, fun i => ?_⟩
    have hi : i ≠ i + 1 := by decide +revert
    exact (h i (i + 1) hi).2
  · rintro (hn | ⟨rfl, hl⟩) i j hij
    · exact absurd (Fin.ext (by omega)) hij
    · exact ⟨by decide +revert, hl i⟩

theorem uncontended_of_le (hn : n ≤ 2) : Uncontended fun _ : Fin n => False := by
  rw [uncontended_iff]
  by_cases h : n ≤ 1
  · exact .inl h
  · exact .inr ⟨by omega, fun _ => not_false⟩

section Overlap

/-- All threads about to enter, the lock free, the monitor clear. -/
def idle (n : ℕ) : State n := ⟨⟨UNLOCKED, false⟩, fun _ => ⟨.mov, 0, 0, false⟩⟩

theorem idle_initial (n : ℕ) : Initial (idle n) := ⟨rfl, fun _ => rfl⟩

/-- Thread `i` stops between its load-exclusive and its store-exclusive, thread `j`
takes the lock meanwhile. -/
def overtake (i j : Fin n) : List (Fin n × Critical) :=
  List.replicate 2 (i, .plain) ++ List.replicate 5 (j, .plain)

theorem run_overtake {i j : Fin n} (h : i ≠ j) :
    (run (idle n) (overtake i j)).cell = ⟨LOCKED, false⟩ ∧
      (run (idle n) (overtake i j)).regs i = ⟨.teq, 0, 1, false⟩ ∧
      (run (idle n) (overtake i j)).regs j = ⟨.critical, 0, 0, true⟩ ∧
      ∀ k, k ≠ i → k ≠ j → (run (idle n) (overtake i j)).regs k = ⟨.mov, 0, 0, false⟩ := by
  refine ⟨?_, ?_, ?_, fun k hi hj => ?_⟩ <;>
    simp [overtake, List.replicate, step, idle, Regs.exec, Cell.strex, UNLOCKED, LOCKED, h.symm, *]

/-- Once the monitor is set again the stopped thread stores and enters as well. -/
theorem run_resume {s : State n} {i : Fin n} (hm : s.cell.monitor = true)
    (hi : s.regs i = ⟨.teq, 0, 1, false⟩) :
    Inside (run s (List.replicate 3 (i, .plain))) i ∧
      ∀ j, j ≠ i → (run s (List.replicate 3 (i, .plain))).regs j = s.regs j := by
  refine ⟨?_, fun j hj => ?_⟩ <;>
    simp [Inside, List.replicate, step, Regs.exec, Cell.strex, UNLOCKED, *]

/-- Thread `i` stops before its store-exclusive, thread `j` takes the lock, thread `k` sets the monitor,
and thread `i` takes the lock as well. -/
def overlap (i j k : Fin n) : List (Fin n) :=
  List.replicate 2 i ++ List.replicate 5 j ++ List.replicate 2 k ++ List.replicate 3 i

/-- Two threads end up inside, if after `overtake` some steps set the monitor and leave
both threads where they are. -/
theorem not_mutualExclusion_of_monitor {loads : Fin n → Prop} {i j : Fin n} (h : i ≠ j)
    (ts : List (Fin n × Critical)) (hts : ∀ t ∈ ts, t.2 = .ldrex → loads t.1)
    (hset : ∀ s : State n, s.regs i = ⟨.teq, 0, 1, false⟩ → s.regs j = ⟨.critical, 0, 0, true⟩ →
      (∀ k, k ≠ i → k ≠ j → s.regs k = ⟨.mov, 0, 0, false⟩) →
        (run s ts).cell.monitor = true ∧ (run s ts).regs i = s.regs i ∧
          (run s ts).regs j = s.regs j) :
    ¬MutualExclusion n loads := by
  intro hmx
  obtain ⟨-, hi, hj, hk⟩ := run_overtake h
  obtain ⟨hm, hi', hj'⟩ := hset _ hi hj hk
  obtain ⟨hin, hother⟩ := run_resume hm (hi'.trans hi)
  refine h (hmx _ (idle_initial n) (overtake i j ++ ts ++ List.replicate 3 (i, .plain)) ?_ i j ?_ ?_)
  · intro t ht
    simp only [overtake, List.mem_append, List.mem_replicate] at ht
    rcases ht with ((⟨-, rfl⟩ | ⟨-, rfl⟩) | ht) | ⟨-, rfl⟩
    · simp
    · simp
    · exact hts t ht
    · simp
  · simpa only [run_append] using hin
  · simp only [run_append, Inside, hother j h.symm, hj', hj]

/-- The third thread only loads: it finds the lock taken, but sets the monitor. -/
theorem not_mutualExclusion_of_three {loads : Fin n → Prop} (i j k : Fin n) (hij : i ≠ j)
    (hki : k ≠ i) (hkj : k ≠ j) : ¬MutualExclusion n loads := by
  refine not_mutualExclusion_of_monitor hij (List.replicate 2 (k, .plain)) (by simp) ?_
  intro s hi hj hk
  have hk := hk k hki hkj
  simp [List.replicate, step, Regs.exec, hk, hki.symm, hkj.symm]

/-- The holder loads exclusively inside its critical section. -/
theorem not_mutualExclusion_of_loads {loads : Fin n → Prop} (i j : Fin n) (hij : i ≠ j)
    (hl : loads j) : ¬MutualExclusion n loads := by
  refine not_mutualExclusion_of_monitor hij [(j, .ldrex)] (by simpa using hl) ?_
  intro s hi hj _
  simp [step, Regs.exec, hj, hij]

end Overlap

/-- The lock excludes exactly when no third thread can set the monitor between a
thread's load-exclusive and its store-exclusive, and no holder can. -/
theorem mutualExclusion_iff (n : ℕ) (loads : Fin n → Prop) :
    MutualExclusion n loads ↔ n ≤ 1 ∨ n = 2 ∧ ∀ i, ¬loads i := by
  rw [← uncontended_iff]
  constructor
  · intro h i j hij
    refine ⟨fun t => ?_, fun hl => not_mutualExclusion_of_loads j i hij.symm hl h⟩
    by_contra ht
    push Not at ht
    exact not_mutualExclusion_of_three i j t hij ht.1 ht.2 h
  · intro hn s hs ts hts i j hi hj
    exact (hs.invariant.run hn hts).inside hi hj

/-- Three threads whose critical sections use no exclusive access. -/
theorem three_threads_overlap : ¬MutualExclusion 3 (fun _ => False) :=
  not_mutualExclusion_of_three 0 1 2 (by decide) (by decide) (by decide)

end EquivChecker.VibeLock
