import EquivChecker.LockedSections
import Mathlib.Data.Int.Order.Basic

/-!
# The stack behind a vibe lock

`stack_pop` of `9-stack.c` reads and writes the stack between `secure_vibes` and `release_vibes`. Each
access to memory is a step of its own, and any thread may take the next one.
-/

namespace EquivChecker.AtomicStack

open LockedSections
open VibeLock (Inside idle idle_initial overlap)

def MAX_STACK_SIZE : ℤ := 100

/-- The next access of a call of `stack_pop`. -/
inductive Line where
  | check | index | load | store | top | decrement | leave
  deriving DecidableEq, Repr

/-- The index and the element that a call has read. -/
structure Frame where
  line : Line
  index : ℤ
  value : ℤ
  deriving DecidableEq, Repr

/-- The array and the top of the stack, the global value with all values that it has been given, and what
the calls return, oldest first. -/
structure Stack where
  data : ℤ → ℤ
  top : ℤ
  global_value : ℤ
  history : List ℤ
  results : List ℤ

/-- The array and the top that `stack_init` leaves. -/
def stack_init (data : ℤ → ℤ) : (ℤ → ℤ) × ℤ :=
  (List.range MAX_STACK_SIZE.toNat).foldl
    (fun s (i : ℕ) => (Function.update s.1 (s.2 + 1) (i : ℤ), s.2 + 1)) (data, -1)

def init_memory (data : ℤ → ℤ) : Stack :=
  let (data, top) := stack_init data
  { data, top, global_value := 0, history := [], results := [] }

/-- One access between `secure_vibes` and `release_vibes`. -/
def pop_line (f : Frame) (m : Stack) : Frame × Stack :=
  match f.line with
  | .check =>
    if m.top < 0 then ({ f with line := .leave }, { m with results := m.results ++ [-1] })
    else ({ f with line := .index }, m)
  | .index => ({ f with line := .load, index := m.top }, m)
  | .load => ({ f with line := .store, value := m.data f.index }, m)
  | .store => ({ f with line := .top }, { m with global_value := f.value, history := m.history ++ [f.value] })
  | .top => ({ f with line := .decrement, index := m.top }, m)
  | .decrement => ({ f with line := .leave }, { m with top := f.index - 1, results := m.results ++ [0] })
  | .leave => (f, m)

def stack_pop : Section Frame Stack where
  enter := ⟨.check, 0, 0⟩
  exec := pop_line
  leaves f := f.line == .leave

/-- A stack that nothing has been popped from. -/
structure Full (m : Stack) : Prop where
  low : -1 ≤ m.top
  high : m.top < MAX_STACK_SIZE
  history : m.history = []
  results : m.results = []

/-- The pops since `m₀` have taken the elements one after another from the top down. -/
structure Popped (m₀ m : Stack) : Prop where
  data : m.data = m₀.data
  values : m.history = (List.range m.history.length).map fun k : ℕ => m₀.data (m₀.top - k)
  count : (m.history.length : ℤ) ≤ m₀.top + 1
  last : m.global_value = m.history.getLastD m₀.global_value
  underflow : -1 ∈ m.results → (m.history.length : ℤ) = m₀.top + 1

/-- The same after steps of the threads; and they read the array inside its bounds, and the top agrees with
the pops while no thread is inside. -/
structure InOrder {n : ℕ} (m₀ : Stack) (s : State n Frame Stack) : Prop where
  popped : Popped m₀ s.mem
  bounds : ∀ i, (s.locals i).line = .load → 0 ≤ (s.locals i).index ∧ (s.locals i).index < MAX_STACK_SIZE
  settled : (∀ i, ¬Inside s.lock i) → s.mem.top = m₀.top - s.mem.history.length

section Calls
variable {n : ℕ} {m₀ m m' : Stack} {f : Frame}

/-- Where a call is. -/
def Phase (m₀ : Stack) (f : Frame) (m : Stack) : Prop :=
  match f.line with
  | .check | .leave => m.top = m₀.top - m.history.length
  | .index => m.top = m₀.top - m.history.length ∧ 0 ≤ m.top
  | .load => m.top = m₀.top - m.history.length ∧ 0 ≤ m.top ∧ f.index = m.top
  | .store => m.top = m₀.top - m.history.length ∧ 0 ≤ m.top ∧ f.value = m₀.data m.top
  | .top => m.top = m₀.top - m.history.length + 1
  | .decrement => m.top = m₀.top - m.history.length + 1 ∧ f.index = m.top

theorem Full.popped (h : Full m) : Popped m m := by
  refine ⟨rfl, ?_, ?_, ?_, fun hmem => ?_⟩
  · rw [h.history]
    rfl
  · rw [h.history]
    exact Int.add_le_add_right h.low 1
  · rw [h.history]
    rfl
  · rw [h.results] at hmem
    cases hmem

/-- The element that is stored is the next one. -/
theorem Popped.store (h : Popped m₀ m) (htop : m.top = m₀.top - m.history.length) (hpos : 0 ≤ m.top) :
    Popped m₀ { m with global_value := m₀.data m.top, history := m.history ++ [m₀.data m.top] } := by
  have hlength : (m.history ++ [m₀.data m.top]).length = m.history.length + 1 := List.length_append
  refine ⟨h.data, ?_, ?_, (List.getLastD_concat ..).symm, fun hmem => ?_⟩
  · change m.history ++ [m₀.data m.top] = _
    rw [hlength, List.range_succ, List.map_append, ← h.values, htop]
    rfl
  · change ((m.history ++ [m₀.data m.top]).length : ℤ) ≤ _
    rw [hlength]
    omega
  · -- no call has found the stack empty
    have hempty := h.underflow hmem
    omega

/-- One access of a call. -/
theorem Popped.pop_line (h : Popped m₀ m) (hphase : Phase m₀ f m) :
    Popped m₀ (pop_line f m).2 ∧ Phase m₀ (pop_line f m).1 (pop_line f m).2 := by
  have hcount := h.count
  unfold Phase at hphase
  unfold AtomicStack.pop_line
  cases hline : f.line with
  | check =>
    simp only [hline] at hphase ⊢
    by_cases hneg : m.top < 0
    · rw [if_pos hneg]
      exact ⟨⟨h.data, h.values, hcount, h.last, fun _ => by change (m.history.length : ℤ) = _; omega⟩, hphase⟩
    · rw [if_neg hneg]
      exact ⟨h, hphase, Int.not_lt.mp hneg⟩
  | index =>
    simp only [hline] at hphase ⊢
    exact ⟨h, hphase.1, hphase.2, rfl⟩
  | load =>
    simp only [hline] at hphase ⊢
    obtain ⟨htop, hpos, hindex⟩ := hphase
    refine ⟨h, htop, hpos, ?_⟩
    rw [h.data, hindex]
  | store =>
    simp only [hline] at hphase ⊢
    obtain ⟨htop, hpos, hvalue⟩ := hphase
    rw [hvalue]
    refine ⟨h.store htop hpos, ?_⟩
    change m.top = m₀.top - ((m.history ++ [m₀.data m.top]).length : ℕ) + 1
    rw [List.length_append, List.length_singleton]
    omega
  | top =>
    simp only [hline] at hphase ⊢
    exact ⟨h, hphase, rfl⟩
  | decrement =>
    simp only [hline] at hphase ⊢
    obtain ⟨htop, hindex⟩ := hphase
    refine ⟨⟨h.data, h.values, hcount, h.last, fun hmem => h.underflow ?_⟩, ?_⟩
    · rcases List.mem_append.mp hmem with hmem | hmem
      · exact hmem
      · exact absurd (List.mem_singleton.mp hmem) (by decide)
    · change f.index - 1 = m₀.top - m.history.length
      omega
  | leave =>
    simp only [hline] at hphase ⊢
    refine ⟨h, ?_⟩
    unfold Phase
    rw [hline]
    exact hphase

theorem Popped.steps (h : Popped m₀ m) (htop : m.top = m₀.top - m.history.length)
    (hsteps : stack_pop.Steps m f m') : Popped m₀ m' ∧ Phase m₀ f m' := by
  induction hsteps with
  | start => exact ⟨h, htop⟩
  | step _ _ ih => exact ih.1.pop_line ih.2

theorem Full.serial (h : Full m₀) {ts : List (Fin n)} (hserial : Serial (fun _ => stack_pop) m₀ ts m) :
    Popped m₀ m ∧ m.top = m₀.top - m.history.length := by
  induction hserial with
  | nil =>
    refine ⟨h.popped, ?_⟩
    rw [h.history]
    simp
  | snoc _ hruns ih =>
    obtain ⟨f, hsteps, hleaves⟩ := hruns
    obtain ⟨hpopped, hphase⟩ := ih.1.steps ih.2 hsteps
    have hline : f.line = .leave := eq_of_beq hleaves
    unfold Phase at hphase
    rw [hline] at hphase
    exact ⟨hpopped, hphase⟩

theorem inOrder_of_invariant {s : State n Frame Stack} (hfull : Full m₀)
    (h : Invariant (fun _ => stack_pop) m₀ s) : InOrder m₀ s := by
  obtain ⟨m, hserial, hquiet, hsteps⟩ := h.serial
  obtain ⟨hpopped, htop⟩ := hfull.serial hserial
  have hinside : ∀ i, Inside s.lock i → Popped m₀ s.mem ∧ Phase m₀ (s.locals i) s.mem := fun i hi =>
    hpopped.steps htop (hsteps i hi)
  refine ⟨?_, fun i hline => ?_, fun hnone => ?_⟩
  · by_cases hnone : ∀ i, ¬Inside s.lock i
    · rw [hquiet hnone]
      exact hpopped
    · push Not at hnone
      obtain ⟨i, hi⟩ := hnone
      exact (hinside i hi).1
  · by_cases hi : Inside s.lock i
    · have hphase := (hinside i hi).2
      unfold Phase at hphase
      rw [hline] at hphase
      have hhigh := hfull.high
      obtain ⟨htop', hpos, hindex⟩ := hphase
      exact ⟨by omega, by omega⟩
    · rw [h.outside i hi] at hline
      cases hline
  · rw [hquiet hnone]
    exact htop

end Calls

section Start

/-- The stack starts with its whole array in use. -/
theorem stack_init_eq (data : ℤ → ℤ) :
    stack_init data = (fun x : ℤ => if 0 ≤ x ∧ x < MAX_STACK_SIZE then x else data x, MAX_STACK_SIZE - 1) := by
  have hloop : ∀ k : ℕ, (List.range k).foldl (fun (s : (ℤ → ℤ) × ℤ) (i : ℕ) =>
      (Function.update s.1 (s.2 + 1) (i : ℤ), s.2 + 1)) (data, -1) =
        (fun x : ℤ => if 0 ≤ x ∧ x < k then x else data x, (k : ℤ) - 1) := by
    intro k
    induction k with
    | zero =>
      refine Prod.ext (funext fun x => (if_neg fun hx => ?_).symm) rfl
      exact absurd (hx.1.trans_lt hx.2) (by simp)
    | succ k ih =>
      rw [List.range_succ, List.foldl_append, ih]
      refine Prod.ext (funext fun x => ?_) (by simp)
      change Function.update (fun x : ℤ => if 0 ≤ x ∧ x < k then x else data x) ((k : ℤ) - 1 + 1) (k : ℤ) x =
        if 0 ≤ x ∧ x < ((k + 1 : ℕ) : ℤ) then x else data x
      rw [Int.sub_add_cancel]
      by_cases hx : x = k
      · subst hx
        rw [Function.update_self, if_pos ⟨by omega, by omega⟩]
      · rw [Function.update_of_ne hx]
        exact if_congr (by omega) rfl rfl
  exact hloop MAX_STACK_SIZE.toNat

theorem init_memory_eq (data : ℤ → ℤ) : init_memory data =
    { data := fun x => if 0 ≤ x ∧ x < MAX_STACK_SIZE then x else data x, top := MAX_STACK_SIZE - 1
      global_value := 0, history := [], results := [] } := by
  rw [init_memory, stack_init_eq]

theorem init_memory_full (data : ℤ → ℤ) : Full (init_memory data) := by
  rw [init_memory_eq]
  exact ⟨show -1 ≤ MAX_STACK_SIZE - 1 by decide, show MAX_STACK_SIZE - 1 < MAX_STACK_SIZE by decide, rfl, rfl⟩

end Start

section Overlap
variable {n : ℕ} {s : State n Frame Stack} {i j k : Fin n}

/-- Both threads inside pop the same element. -/
theorem run_both (hij : i ≠ j) (hi : Inside s.lock i) (hj : Inside s.lock j)
    (hlocals : ∀ x, s.locals x = ⟨.check, 0, 0⟩) (htop : 0 ≤ s.mem.top) :
    (run (fun _ => stack_pop) s (List.replicate 4 i ++ List.replicate 4 j)).mem.history =
      s.mem.history ++ [s.mem.data s.mem.top, s.mem.data s.mem.top] := by
  simp [run, List.replicate, step, stack_pop, pop_line, hi, hj, hlocals, Int.not_lt.mpr htop, hij.symm]

/-- Two of three threads pop the same element. -/
theorem run_overlap_both (hij : i ≠ j) (hik : i ≠ k) (hjk : j ≠ k) (hs : s.lock = idle n)
    (hlocals : ∀ x, s.locals x = ⟨.check, 0, 0⟩) (htop : 0 ≤ s.mem.top) :
    (run (fun _ => stack_pop) s
      (overlap i j k ++ (List.replicate 4 i ++ List.replicate 4 j))).mem.history =
        s.mem.history ++ [s.mem.data s.mem.top, s.mem.data s.mem.top] := by
  obtain ⟨hi, hj, -, hsame⟩ := run_overlap (fun _ => stack_pop) hij hik hjk hs
  have hstart : ∀ x, (run (fun _ => stack_pop) s (overlap i j k)).locals x = ⟨.check, 0, 0⟩ := by
    rw [hsame]
    exact hlocals
  rw [run_append, run_both hij hi hj hstart (by rw [hsame]; exact htop), hsame]

end Overlap

/-- In every run of every interleaving the pops are made one after another, provided that there are no more
than two threads: a third one can set the monitor for a store-exclusive that has been overtaken. -/
theorem pops_in_order_iff (n : ℕ) : (∀ s : State n Frame Stack,
    Initial (fun _ => stack_pop) s → Full s.mem → ∀ ts, InOrder s.mem (run (fun _ => stack_pop) s ts)) ↔
      n ≤ 2 := by
  constructor
  · intro hall
    by_contra hn
    obtain ⟨i, j, k, hij, hik, hjk⟩ : ∃ i j k : Fin n, i ≠ j ∧ i ≠ k ∧ j ≠ k :=
      ⟨⟨0, by omega⟩, ⟨1, by omega⟩, ⟨2, by omega⟩, by simp, by simp, by simp⟩
    have hvalues := (hall ⟨idle n, init_memory fun _ => 0, fun _ => ⟨.check, 0, 0⟩, []⟩
      ⟨idle_initial n, fun _ => rfl, rfl⟩ (init_memory_full _)
      (overlap i j k ++ (List.replicate 4 i ++ List.replicate 4 j))).popped.values
    rw [init_memory_eq, run_overlap_both hij hik hjk rfl (fun _ => rfl)
      (show 0 ≤ MAX_STACK_SIZE - 1 by decide)] at hvalues
    -- the second element is not the one below the first
    have hsecond := (List.cons.inj (List.cons.inj hvalues).2).1
    simp [MAX_STACK_SIZE] at hsecond
  · exact fun hn s hs hfull ts => inOrder_of_invariant hfull (hs.invariant.run hn ts)

end EquivChecker.AtomicStack
