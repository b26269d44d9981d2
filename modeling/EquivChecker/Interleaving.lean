import Mathlib.Data.List.Chain
import Mathlib.Data.List.Perm.Basic
import Mathlib.Data.Set.Basic
import Mathlib.Logic.Function.Basic

/-!
# Interleavings of footprint machines and their reduction

A machine executes one instruction of one thread at a time on a common store.
What an instruction does is determined by the thread's registers and by the cells
it reads, and it changes only cells it writes. Instructions of different threads
that do not conflict commute. Every complete interleaving can therefore be
rearranged so that it leaves a thread only after an instruction that touches one
of the conflicting cells, or when the thread exits, without any new preemption.
-/

namespace EquivChecker.Interleaving

universe u

/-- A deterministic instruction set with read and write footprints. -/
structure Machine (R A B : Type u) where
  exited : R → Bool
  reads : R → (A → B) → Set A
  writes : R → (A → B) → Set A
  exec : R → (A → B) → R × (A → B)
  /-- Cells outside the write footprint keep their content. -/
  frame : ∀ r m a, a ∉ writes r m → (exec r m).2 a = m a
  /-- Stores that agree on the read footprint are not told apart. -/
  locality : ∀ r m m', (∀ a ∈ reads r m, m' a = m a) →
    reads r m' = reads r m ∧ writes r m' = writes r m ∧ (exec r m').1 = (exec r m).1 ∧
      ∀ a ∈ writes r m, (exec r m').2 a = (exec r m).2 a

/-- Private registers of every thread and the common store. -/
structure Config (T R A B : Type u) where
  regs : T → R
  mem : A → B

/-- One executed instruction: its thread, its footprint, and whether the thread is
finished with it. -/
structure Event (T A : Type u) where
  thread : T
  reads : Set A
  writes : Set A
  exits : Bool

namespace Event
variable {T A : Type u}

def touched (e : Event T A) : Set A := e.reads ∪ e.writes

/-- Both instructions access the cell and at least one of them writes it. -/
def Conflict (e f : Event T A) (a : A) : Prop :=
  (a ∈ e.writes ∧ a ∈ f.touched) ∨ (a ∈ e.touched ∧ a ∈ f.writes)

def Independent (e f : Event T A) : Prop := ∀ a, ¬Conflict e f a

theorem Conflict.touched_left {e f : Event T A} {a : A} (h : Conflict e f a) : a ∈ e.touched := by
  rcases h with h | h
  · exact .inr h.1
  · exact h.1

theorem Independent.not_reads {e f : Event T A} (h : Independent e f) {a : A}
    (ha : a ∈ f.reads) : a ∉ e.writes := fun hw => h a (.inl ⟨hw, .inl ha⟩)

theorem Independent.not_writes {e f : Event T A} (h : Independent e f) {a : A}
    (ha : a ∈ f.writes) : a ∉ e.touched := fun ht => h a (.inr ⟨ht, ha⟩)

end Event

section Runs
variable {T R A B : Type u} [DecidableEq T] (M : Machine R A B)

def step (s : Config T R A B) (i : T) : Config T R A B :=
  ⟨Function.update s.regs i (M.exec (s.regs i) s.mem).1, (M.exec (s.regs i) s.mem).2⟩

def event (s : Config T R A B) (i : T) : Event T A :=
  ⟨i, M.reads (s.regs i) s.mem, M.writes (s.regs i) s.mem,
    M.exited (M.exec (s.regs i) s.mem).1⟩

def run (s : Config T R A B) (σ : List T) : Config T R A B := σ.foldl (step M) s

def trace (s : Config T R A B) : List T → List (Event T A)
  | [] => []
  | i :: σ => event M s i :: trace (step M s i) σ

/-- Every instruction is one of a thread that has not exited. -/
def Valid (s : Config T R A B) : List T → Prop
  | [] => True
  | i :: σ => M.exited (s.regs i) = false ∧ Valid (step M s i) σ

/-- The interleaving runs every thread to its exit. -/
def Complete (s : Config T R A B) (σ : List T) : Prop :=
  Valid M s σ ∧ ∀ i, M.exited ((run M s σ).regs i) = true

@[simp] theorem run_nil (s : Config T R A B) : run M s [] = s := rfl
@[simp] theorem run_cons (s : Config T R A B) (i : T) (σ : List T) :
    run M s (i :: σ) = run M (step M s i) σ := rfl

theorem run_append (s : Config T R A B) (σ τ : List T) :
    run M s (σ ++ τ) = run M (run M s σ) τ := List.foldl_append

theorem trace_append (s : Config T R A B) (σ τ : List T) :
    trace M s (σ ++ τ) = trace M s σ ++ trace M (run M s σ) τ := by
  induction σ generalizing s with
  | nil => rfl
  | cons i σ ih => simp [trace, ih]

theorem valid_append (s : Config T R A B) (σ τ : List T) :
    Valid M s (σ ++ τ) ↔ Valid M s σ ∧ Valid M (run M s σ) τ := by
  induction σ generalizing s with
  | nil => simp [Valid]
  | cons i σ ih => simp [Valid, ih, and_assoc]

omit [DecidableEq T] in
@[simp] theorem event_thread (s : Config T R A B) (i : T) : (event M s i).thread = i := rfl

@[simp] theorem step_regs_self (s : Config T R A B) (i : T) :
    (step M s i).regs i = (M.exec (s.regs i) s.mem).1 := by simp [step]

theorem step_regs_of_ne (s : Config T R A B) {i j : T} (h : j ≠ i) :
    (step M s i).regs j = s.regs j := by simp [step, h]

theorem run_regs_of_notMem (s : Config T R A B) {i : T} {σ : List T} (h : i ∉ σ) :
    (run M s σ).regs i = s.regs i := by
  induction σ generalizing s with
  | nil => rfl
  | cons j σ ih =>
    rw [run_cons, ih _ (List.not_mem_of_not_mem_cons h)]
    exact step_regs_of_ne M s (List.ne_of_not_mem_cons h)

theorem thread_mem_of_mem_trace {s : Config T R A B} {σ : List T} {e : Event T A}
    (h : e ∈ trace M s σ) : e.thread ∈ σ := by
  induction σ generalizing s with
  | nil => simp [trace] at h
  | cons i σ ih =>
    rcases List.mem_cons.mp h with rfl | h
    · exact List.mem_cons_self
    · exact List.mem_cons_of_mem i (ih h)

/-- Every event of a run is one that some thread makes in some state. -/
theorem exists_event_of_mem_trace {s : Config T R A B} {σ : List T} {e : Event T A}
    (h : e ∈ trace M s σ) : ∃ t i, e = event M t i := by
  induction σ generalizing s with
  | nil => simp [trace] at h
  | cons i σ ih =>
    rcases List.mem_cons.mp h with rfl | h
    · exact ⟨s, i, rfl⟩
    · exact ih h

section Commute
variable {M} {s : Config T R A B} {i j : T}

/-- An independent instruction of another thread does the same thing one step earlier. -/
theorem exec_step_of_independent (h : (event M s i).Independent (event M (step M s i) j)) (hji : j ≠ i) :
    M.reads (s.regs j) s.mem = M.reads (s.regs j) (step M s i).mem ∧
      M.writes (s.regs j) s.mem = M.writes (s.regs j) (step M s i).mem ∧
      (M.exec (s.regs j) s.mem).1 = (M.exec (s.regs j) (step M s i).mem).1 ∧
      ∀ a ∈ M.writes (s.regs j) (step M s i).mem,
        (M.exec (s.regs j) s.mem).2 a = (M.exec (s.regs j) (step M s i).mem).2 a := by
  refine M.locality (s.regs j) (step M s i).mem s.mem fun a ha => ?_
  have hr : a ∈ (event M (step M s i) j).reads := by
    simpa only [event, step_regs_of_ne M s hji] using ha
  exact (M.frame _ _ _ (h.not_reads hr)).symm

theorem event_of_independent (h : (event M s i).Independent (event M (step M s i) j)) (hji : j ≠ i) :
    event M s j = event M (step M s i) j := by
  obtain ⟨hr, hw, he, -⟩ := exec_step_of_independent h hji
  simp only [event, step_regs_of_ne M s hji, hr, hw, he]

/-- The instruction of `i` is not disturbed by an independent one before it. -/
theorem exec_of_independent (h : (event M s i).Independent (event M (step M s i) j)) (hji : j ≠ i) :
    M.reads (s.regs i) (step M s j).mem = M.reads (s.regs i) s.mem ∧
      M.writes (s.regs i) (step M s j).mem = M.writes (s.regs i) s.mem ∧
      (M.exec (s.regs i) (step M s j).mem).1 = (M.exec (s.regs i) s.mem).1 ∧
      ∀ a ∈ M.writes (s.regs i) s.mem,
        (M.exec (s.regs i) (step M s j).mem).2 a = (M.exec (s.regs i) s.mem).2 a := by
  refine M.locality (s.regs i) s.mem (step M s j).mem fun a ha => ?_
  refine M.frame _ _ _ fun hw => ?_
  have hw' : a ∈ (event M (step M s i) j).writes := by
    rw [← event_of_independent h hji]
    exact hw
  exact h.not_writes hw' (.inl ha)

theorem event_step_of_independent (h : (event M s i).Independent (event M (step M s i) j))
    (hji : j ≠ i) : event M (step M s j) i = event M s i := by
  obtain ⟨hr, hw, he, -⟩ := exec_of_independent h hji
  simp only [event, step_regs_of_ne M s hji.symm, hr, hw, he]

/-- Adjacent independent instructions of different threads commute. -/
theorem step_comm (h : (event M s i).Independent (event M (step M s i) j)) (hji : j ≠ i) :
    step M (step M s j) i = step M (step M s i) j := by
  obtain ⟨hjr, hjw, hje, hjm⟩ := exec_step_of_independent h hji
  obtain ⟨hir, hiw, hie, him⟩ := exec_of_independent h hji
  have hregs : (step M (step M s j) i).regs = (step M (step M s i) j).regs := by
    funext k
    by_cases hki : k = i
    · subst hki
      rw [step_regs_self, step_regs_of_ne M s hji.symm, hie, step_regs_of_ne M _ hji.symm,
        step_regs_self]
    · by_cases hkj : k = j
      · subst hkj
        rw [step_regs_of_ne M _ hki, step_regs_self, hje, step_regs_self, step_regs_of_ne M s hki]
      · rw [step_regs_of_ne M _ hki, step_regs_of_ne M _ hkj, step_regs_of_ne M _ hkj,
          step_regs_of_ne M _ hki]
  have hmem : (step M (step M s j) i).mem = (step M (step M s i) j).mem := by
    funext a
    change (M.exec ((step M s j).regs i) (step M s j).mem).2 a =
      (M.exec ((step M s i).regs j) (step M s i).mem).2 a
    rw [step_regs_of_ne M s hji.symm, step_regs_of_ne M s hji]
    by_cases hi : a ∈ M.writes (s.regs i) s.mem
    · -- written by `i`, hence not by `j`
      have hj : a ∉ M.writes (s.regs j) (step M s i).mem := by
        intro hj
        have hw : a ∈ (event M (step M s i) j).writes := by
          simpa only [event, step_regs_of_ne M s hji] using hj
        exact h.not_writes hw (.inr hi)
      rw [him a hi, M.frame _ _ _ hj]
      rfl
    · have hi' : a ∉ M.writes (s.regs i) (step M s j).mem := hiw ▸ hi
      rw [M.frame _ _ _ hi']
      by_cases hj : a ∈ M.writes (s.regs j) (step M s i).mem
      · exact hjm a hj
      · have hj' : a ∉ M.writes (s.regs j) s.mem := hjw ▸ hj
        rw [M.frame _ _ _ hj]
        exact (M.frame _ _ _ hj').trans (M.frame _ _ _ hi).symm
  calc step M (step M s j) i
      = ⟨(step M (step M s j) i).regs, (step M (step M s j) i).mem⟩ := rfl
    _ = ⟨(step M (step M s i) j).regs, (step M (step M s i) j).mem⟩ := by rw [hregs, hmem]

/-- What does not conflict with an instruction still does not behind the first of it. -/
theorem independent_tail {α : List T} (hi : i ∉ j :: α)
    (h : ∀ f ∈ trace M (step M s i) (j :: α), (event M s i).Independent f) :
    ∀ f ∈ trace M (step M (step M s j) i) α, (event M (step M s j) i).Independent f := by
  have hji : j ≠ i := Ne.symm (List.ne_of_not_mem_cons hi)
  have hj := h _ List.mem_cons_self
  rw [step_comm hj hji, event_step_of_independent hj hji]
  exact fun f hf => h f (List.mem_cons_of_mem _ hf)

/-- An instruction can be delayed past any run of other threads it does not conflict with. -/
theorem delay {α : List T} (hi : i ∉ α)
    (h : ∀ f ∈ trace M (step M s i) α, (event M s i).Independent f) :
    trace M s α = trace M (step M s i) α ∧ event M (run M s α) i = event M s i ∧
      step M (run M s α) i = run M (step M s i) α := by
  induction α generalizing s with
  | nil => exact ⟨rfl, rfl, rfl⟩
  | cons j α ih =>
    have hji : j ≠ i := Ne.symm (List.ne_of_not_mem_cons hi)
    have hj := h _ List.mem_cons_self
    have hcomm := step_comm hj hji
    obtain ⟨htr, hev, hrun⟩ := ih (List.not_mem_of_not_mem_cons hi) (independent_tail hi h)
    refine ⟨?_, ?_, ?_⟩
    · rw [trace, trace, htr, hcomm, event_of_independent hj hji]
    · rw [run_cons, hev, event_step_of_independent hj hji]
    · rw [run_cons, hrun, hcomm, run_cons]

theorem valid_of_delay {α : List T} (hi : i ∉ α)
    (h : ∀ f ∈ trace M (step M s i) α, (event M s i).Independent f)
    (hv : Valid M (step M s i) α) : Valid M s α := by
  induction α generalizing s with
  | nil => trivial
  | cons j α ih =>
    have hji : j ≠ i := Ne.symm (List.ne_of_not_mem_cons hi)
    have hj := h _ List.mem_cons_self
    refine ⟨?_, ih (List.not_mem_of_not_mem_cons hi) (independent_tail hi h) ?_⟩
    · rw [← step_regs_of_ne M s hji]
      exact hv.1
    · rw [step_comm hj hji]
      exact hv.2

end Commute

section Reduction

/-- The interleaving leaves a thread only after an instruction that touches a shared
cell, or when the thread exits. -/
def Reduced {A : Type u} (shared : Set A) (es : List (Event T A)) : Prop :=
  es.IsChain fun e f => e.thread ≠ f.thread → (e.touched ∩ shared).Nonempty ∨ e.exits = true

/-- Switches away from a thread that has not exited. -/
def preemptions {A : Type u} : List (Event T A) → ℕ
  | e :: f :: es =>
      (if e.thread ≠ f.thread ∧ e.exits = false then 1 else 0) + preemptions (f :: es)
  | _ => 0

/-- Every cell that two different threads access with at least one write is shared. -/
def ConflictsIn {A : Type u} (shared : Set A) (es : List (Event T A)) : Prop :=
  ∀ e ∈ es, ∀ f ∈ es, e.thread ≠ f.thread → ∀ a, e.Conflict f a → a ∈ shared

omit [DecidableEq T] in
theorem ConflictsIn.tail {A : Type u} {shared : Set A} {e : Event T A} {es : List (Event T A)}
    (h : ConflictsIn shared (e :: es)) : ConflictsIn shared es :=
  fun f hf g hg => h f (List.mem_cons_of_mem e hf) g (List.mem_cons_of_mem e hg)

omit [DecidableEq T] in
/-- Putting an instruction of a thread directly before another one of the same thread
adds no place where a thread is left. -/
theorem reduced_insert {A : Type u} {shared : Set A} {e f : Event T A} (h : e.thread = f.thread)
    {xs ys : List (Event T A)} (hr : Reduced shared (xs ++ f :: ys)) :
    Reduced shared (xs ++ e :: f :: ys) := by
  induction xs with
  | nil => exact .cons_cons (fun hne => absurd h hne) hr
  | cons x xs ih =>
    cases xs with
    | nil =>
      rcases hr with - | - | ⟨hx, hr⟩
      exact .cons_cons (h ▸ hx) (ih hr)
    | cons y xs =>
      rcases hr with - | - | ⟨hx, hr⟩
      exact .cons_cons hx (ih hr)

theorem preemptions_insert {A : Type u} {e f : Event T A} (h : e.thread = f.thread)
    (xs ys : List (Event T A)) :
    preemptions (xs ++ e :: f :: ys) = preemptions (xs ++ f :: ys) := by
  induction xs with
  | nil => simp [preemptions, h]
  | cons x xs ih =>
    cases xs with
    | nil => simp [preemptions, h]
    | cons y xs => simpa [preemptions] using ih

/-- One if the two interleavings start with different threads. -/
def headGap (σ τ : List T) : ℕ := if σ.head? = τ.head? then 0 else 1

/-- What switching from this instruction to the head of the interleaving costs. -/
def leaving {A : Type u} (e : Event T A) (σ : List T) : ℕ :=
  match σ.head? with
  | some j => if e.thread ≠ j ∧ e.exits = false then 1 else 0
  | none => 0

theorem leaving_le {A : Type u} (e : Event T A) (σ τ : List T) :
    leaving e τ ≤ leaving e σ + headGap σ τ := by
  by_cases h : σ.head? = τ.head?
  · simp [leaving, h]
  · have hτ : leaving e τ ≤ 1 := by
      unfold leaving
      split
      · split <;> omega
      · omega
    simp only [headGap, h, if_false]
    omega

theorem preemptions_trace_cons (s : Config T R A B) (i : T) (σ : List T) :
    preemptions (trace M s (i :: σ)) =
      leaving (event M s i) σ + preemptions (trace M (step M s i) σ) := by
  cases σ with
  | nil => rfl
  | cons j σ => rfl

theorem reduced_trace_cons {shared : Set A} {s : Config T R A B} {i : T} {σ : List T}
    (h : Reduced shared (trace M (step M s i) σ))
    (hi : σ.head? ≠ some i → ((event M s i).touched ∩ shared).Nonempty ∨ (event M s i).exits = true) :
    Reduced shared (trace M s (i :: σ)) := by
  cases σ with
  | nil => exact .singleton _
  | cons j σ => exact .cons_cons (fun hne => hi (by simpa using Ne.symm hne)) h

/-- The strengthened statement that the induction on the interleaving carries: if the
rearranged run starts with another thread, it has one preemption to spare. -/
theorem exists_reduced_aux {shared : Set A} (σ : List T) (s : Config T R A B)
    (hσ : Complete M s σ) (hc : ConflictsIn shared (trace M s σ)) :
    ∃ τ, Complete M s τ ∧ run M s τ = run M s σ ∧ (trace M s τ).Perm (trace M s σ) ∧
      Reduced shared (trace M s τ) ∧
      preemptions (trace M s τ) + headGap σ τ ≤ preemptions (trace M s σ) := by
  induction σ generalizing s with
  | nil => exact ⟨[], hσ, rfl, .refl _, .nil, by simp [headGap, trace, preemptions]⟩
  | cons i σ ih =>
    have hσ' : Complete M (step M s i) σ := ⟨hσ.1.2, hσ.2⟩
    obtain ⟨τ, hτ, hrun, hperm, hred, hpre⟩ := ih (step M s i) hσ' hc.tail
    by_cases hstop : ((event M s i).touched ∩ shared).Nonempty ∨ (event M s i).exits = true
    · -- the instruction may be left, so it stays where it is
      refine ⟨i :: τ, ⟨⟨hσ.1.1, hτ.1⟩, hτ.2⟩, hrun, hperm.cons _,
        reduced_trace_cons M hred fun _ => hstop, ?_⟩
      have hgap : headGap (i :: σ) (i :: τ) = 0 := by simp [headGap]
      have hle := leaving_le (event M s i) σ τ
      rw [hgap, preemptions_trace_cons, preemptions_trace_cons]
      omega
    · -- a local instruction is delayed to the next one of its thread
      push Not at hstop
      obtain ⟨hlocal, halive⟩ := hstop
      have halive : (event M s i).exits = false := by simpa using halive
      have hmem : i ∈ τ := by
        by_contra hi
        have hend := hτ.2 i
        rw [run_regs_of_notMem M _ hi, step_regs_self] at hend
        exact absurd hend (by simpa [event] using halive)
      obtain ⟨α, β, rfl, hα⟩ := List.eq_append_cons_of_mem hmem
      have hind : ∀ f ∈ trace M (step M s i) α, (event M s i).Independent f := by
        intro f hf a ha
        have hfα := thread_mem_of_mem_trace M hf
        have hft : f ∈ trace M (step M s i) σ := by
          refine hperm.subset ?_
          rw [trace_append]
          exact List.mem_append_left _ hf
        have hne : (event M s i).thread ≠ f.thread := by
          intro he
          rw [event_thread] at he
          exact hα (he ▸ hfα)
        have hsh := hc _ List.mem_cons_self f (List.mem_cons_of_mem _ hft) hne a ha
        exact Set.eq_empty_iff_forall_notMem.mp hlocal a ⟨ha.touched_left, hsh⟩
      obtain ⟨htr, hev, hst⟩ := delay hα hind
      have htrace : trace M s (α ++ i :: i :: β) = trace M (step M s i) α ++
          event M s i :: trace M (run M (step M s i) α) (i :: β) := by
        rw [trace_append, htr, trace, hev, hst]
      have htrace' : trace M (step M s i) (α ++ i :: β) = trace M (step M s i) α ++
          trace M (run M (step M s i) α) (i :: β) := trace_append M _ _ _
      have hthread : (event M s i).thread = (event M (run M (step M s i) α) i).thread := rfl
      obtain ⟨hv₁, hv₂⟩ := (valid_append M _ _ _).mp hτ.1
      have hri : M.exited ((run M s α).regs i) = false := by
        rw [run_regs_of_notMem M s hα]
        exact hσ.1.1
      have hrun' : run M s (α ++ i :: i :: β) = run M (step M s i) (α ++ i :: β) := by
        rw [run_append, run_cons, hst, run_append]
      have hvα : Valid M s α := valid_of_delay hα hind hv₁
      refine ⟨α ++ i :: i :: β, ⟨?_, ?_⟩, ?_, ?_, ?_, ?_⟩
      · refine (valid_append M _ _ _).mpr ⟨hvα, hri, ?_⟩
        rw [hst]
        exact hv₂
      · rw [hrun']
        exact hτ.2
      · rw [hrun', hrun, run_cons]
      · rw [htrace]
        refine List.perm_middle.trans ?_
        rw [← htrace']
        exact hperm.cons _
      · rw [htrace]
        rw [htrace'] at hred
        exact reduced_insert hthread hred
      · have hsame : preemptions (trace M s (α ++ i :: i :: β)) =
            preemptions (trace M (step M s i) (α ++ i :: β)) := by
          rw [htrace, htrace']
          exact preemptions_insert hthread _ _
        rw [hsame, preemptions_trace_cons]
        cases α with
        | nil =>
          have hgap : headGap (i :: σ) ([] ++ i :: i :: β) = 0 := by simp [headGap]
          omega
        | cons j α =>
          have hij : i ≠ j := List.ne_of_not_mem_cons hα
          have hgap : headGap (i :: σ) (j :: α ++ i :: i :: β) = 1 := by simp [headGap, hij]
          by_cases hhead : σ.head? = some j
          · have hl : leaving (event M s i) σ = 1 := by simp [leaving, hhead, hij, halive]
            omega
          · have hg : headGap σ (j :: α ++ i :: β) = 1 := by simp [headGap, hhead]
            omega

/-- Every complete interleaving has a reduced one with the same final configuration
and no more preemptions, in which every thread executes the same instructions. -/
theorem exists_reduced {shared : Set A} {σ : List T} {s : Config T R A B}
    (hσ : Complete M s σ) (hc : ConflictsIn shared (trace M s σ)) :
    ∃ τ, Complete M s τ ∧ run M s τ = run M s σ ∧ (trace M s τ).Perm (trace M s σ) ∧
      Reduced shared (trace M s τ) ∧
      preemptions (trace M s τ) ≤ preemptions (trace M s σ) := by
  obtain ⟨τ, hτ, hrun, hperm, hred, hpre⟩ := exists_reduced_aux M σ s hσ hc
  exact ⟨τ, hτ, hrun, hperm, hred, by omega⟩

end Reduction

end Runs

end EquivChecker.Interleaving
