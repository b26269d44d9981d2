import EquivChecker.Interleaving
import EquivChecker.Threads

/-!
# Switching only after touches of shared memory

The abort handler marks an instruction that touches shared memory and the next
prefetch abort may switch. Threads that never yield, seen one instruction at a
time, form a footprint machine, so every instruction-level interleaving has an
equivalent one that leaves threads only at these points or when they exit.
-/

namespace EquivChecker.SwitchPoints
open Interleaving Checker

/-- The two aborts around one instruction with these touched bytes: the data abort that
it raises, and the prefetch abort of the instruction behind it. -/
def aborts {Q : Type} [RunQueue Q ℕ] (s : Checker Q) (touched : Finset Addr) (w : Bool)
    (regs : Regs) (mem : Mem) : Except Fault (Checker Q) := do
  let s ← access touched w s
  equiv_hash_handler { s with regs, mem }

/-- From some state between two instructions the handlers leave the current thread. -/
def CanPreempt (shared touched : Finset Addr) : Prop :=
  ∃ (s s' : Checker (List ℕ)) (w : Bool) (regs : Regs) (mem : Mem),
    s.shared_memory = some shared ∧ s.ctx_switch_status.do_instr_count = false ∧
      aborts s touched w regs mem = .ok s' ∧ s'.cur_thread ≠ s.cur_thread

/-- Without a marked touch the prefetch abort only saves registers. -/
theorem equiv_hash_handler_unmarked {Q : Type} [RunQueue Q ℕ] {s s' : Checker Q}
    (hd : s.ctx_switch_status.do_instr_count = false) (h : equiv_hash_handler s = .ok s') :
    s'.cur_thread = s.cur_thread := by
  obtain ⟨th, -, h⟩ := bind_ok_iff.mp h
  have hd' : (rw_tracker_arm s).ctx_switch_status.do_instr_count = false := by
    simpa [rw_tracker_arm, apply_ite] using hd
  simp only [setThread, hd'] at h
  cases h
  simp [rw_tracker_arm, apply_ite]

/-- An instruction that touches no shared byte marks nothing. -/
theorem ctx_switch_handler_disjoint {Q : Type} {s s' : Checker Q} {shared touched : Finset Addr}
    {pc : Word} (hs : s.shared_memory = some shared) (hd : shared ∩ touched = ∅)
    (h : ctx_switch_handler touched pc s = .ok s') : s' = s := by
  unfold ctx_switch_handler at h
  split at h
  · cases h; rfl
  · simp only [hs, hd] at h
    split at h <;> simp_all

theorem access_disjoint {Q : Type} {s s' : Checker Q} {shared touched : Finset Addr} {w : Bool}
    (hs : s.shared_memory = some shared) (ht : shared ∩ touched = ∅)
    (h : access touched w s = .ok s') :
    s'.ctx_switch_status = s.ctx_switch_status ∧ s'.cur_thread = s.cur_thread := by
  unfold access at h
  split at h
  · obtain ⟨s₂, h₂, h⟩ := bind_ok_iff.mp h
    have hs₂ : s₂ = s := by
      unfold memory_touch_handler at h₂
      split at h₂
      · exact ctx_switch_handler_disjoint hs ht h₂
      · cases h₂; rfl
    cases h
    subst hs₂
    exact ⟨rfl, rfl⟩
  · cases h
    exact ⟨rfl, rfl⟩

theorem aborts_disjoint {Q : Type} [RunQueue Q ℕ] {s s' : Checker Q} {shared touched : Finset Addr}
    {w : Bool} {regs : Regs} {mem : Mem} (hs : s.shared_memory = some shared)
    (hd : s.ctx_switch_status.do_instr_count = false) (ht : shared ∩ touched = ∅)
    (h : aborts s touched w regs mem = .ok s') : s'.cur_thread = s.cur_thread := by
  obtain ⟨s₁, h₁, h⟩ := bind_ok_iff.mp h
  obtain ⟨hst, hcur⟩ := access_disjoint hs ht h₁
  have hkeep := equiv_hash_handler_unmarked (s := { s₁ with regs, mem }) (by rw [hst]; exact hd) h
  exact hkeep.trans hcur

/-- Thread 1 of two is to be left after its first touch. -/
def leavingFirst (shared : Finset Addr) : Checker (List ℕ) where
  equiv_runq := [1]
  threads th := ⟨fun _ => 0, th + 1, 0, 0, 0, 0⟩
  allocated := 2
  ntids := 3
  cur_thread := some 0
  ctx_switch_status := ⟨0, 0, false, false⟩
  schedule := some ⟨[1, 2], [1], 1, 2, false⟩
  shared_memory := some shared
  pcs := []
  rw_tracker_enabled := true
  armed := true
  current_tracker := ⟨none, none⟩
  touch_handler := true
  mismatch := 0
  regs := fun _ => 0
  mem := fun _ => 0
  uart := []
  nullReads := 0

/-- The handlers can preempt a thread exactly after an instruction that touches a byte
of shared memory. -/
theorem canPreempt_iff (shared touched : Finset Addr) :
    CanPreempt shared touched ↔ (shared ∩ touched).Nonempty := by
  constructor
  · rintro ⟨s, s', w, regs, mem, hs, hd, h, hne⟩
    by_contra hn
    exact hne (aborts_disjoint hs hd (Finset.not_nonempty_iff_eq_empty.mp hn) h)
  · intro hn
    have ht : touched ≠ ∅ := by
      rintro rfl
      simp at hn
    have hst : shared ∩ touched ≠ ∅ := Finset.nonempty_iff_ne_empty.mp hn
    have hrun : ∃ s', aborts (leavingFirst shared) touched true (fun _ => 0) (fun _ => 0) = .ok s' ∧
        s'.cur_thread = some 1 := by
      simp [leavingFirst, aborts, access, rw_tracker_data_abort_handler, memory_touch_handler,
        ctx_switch_handler, hst, ht, equiv_hash_handler, cur, readAt, retrieve_tid_from_queue,
        retrieveLoop, setThread, rw_tracker_arm, rw_tracker_disarm, mismatch_run, bind, Except.bind]
    obtain ⟨s', hs', hcur⟩ := hrun
    exact ⟨leavingFirst shared, s', true, _, _, rfl, rfl, hs', by simp [hcur, leavingFirst]⟩

/-- Which bytes the instructions of non-yielding threads read and write. An instruction
depends on nothing but the registers and the bytes it reads. -/
structure Footprints (p : Platform) where
  reads : Regs → Mem → Set Addr
  writes : Regs → Mem → Set Addr
  /-- The only system call is the exit, and a trap accesses no data. -/
  trap : ∀ {r m r'}, p.fetch r m = .swi r' →
    r' 0 = EQUIV_EXIT ∧ reads r m = ∅ ∧ writes r m = ∅
  touched : ∀ {r m t w r' m'}, p.fetch r m = .exec t w r' m' → (t : Set Addr) = reads r m ∪ writes r m
  frame : ∀ {r m t w r' m'}, p.fetch r m = .exec t w r' m' → ∀ a, a ∉ writes r m → m' a = m a
  trap_locality : ∀ {r m m' r'}, (∀ a ∈ reads r m, m' a = m a) →
    p.fetch r m = .swi r' → p.fetch r m' = .swi r'
  exec_locality : ∀ {r m m' t w r' m₁}, (∀ a ∈ reads r m, m' a = m a) →
    p.fetch r m = .exec t w r' m₁ → ∃ m₁', p.fetch r m' = .exec t w r' m₁' ∧
      reads r m' = reads r m ∧ writes r m' = writes r m ∧ ∀ a ∈ writes r m, m₁' a = m₁ a

section Threads
variable {p : Platform}

/-- One instruction of a thread; the exit system call leaves no registers behind. -/
def execOne (p : Platform) : Option Regs → Mem → Option Regs × Mem
  | none, m => (none, m)
  | some r, m => match p.fetch r m with
    | .exec _ _ r' m' => (some r', m')
    | .swi _ => (none, m)

/-- The threads as a footprint machine. -/
def Footprints.machine (fp : Footprints p) : Machine (Option Regs) Addr (BitVec 8) where
  exited r := r.isNone
  reads r m := match r with
    | none => ∅
    | some r => fp.reads r m
  writes r m := match r with
    | none => ∅
    | some r => fp.writes r m
  exec := execOne p
  frame r m a ha := by
    cases r with
    | none => rfl
    | some r =>
      cases h : p.fetch r m with
      | exec t w r' m' => simpa [execOne, h] using fp.frame h a ha
      | swi r' => simp [execOne, h]
  locality r m m' hm := by
    cases r with
    | none => exact ⟨rfl, rfl, rfl, fun a ha => absurd ha (Set.notMem_empty a)⟩
    | some r =>
      cases h : p.fetch r m with
      | exec t w r' m₁ =>
        obtain ⟨m₁', h', hr, hw, hmem⟩ := fp.exec_locality hm h
        refine ⟨hr, hw, by simp [execOne, h, h'], fun a ha => ?_⟩
        simpa [execOne, h, h'] using hmem a ha
      | swi r' =>
        have h' := fp.trap_locality hm h
        obtain ⟨-, hr, hw⟩ := fp.trap h
        obtain ⟨-, hr', hw'⟩ := fp.trap h'
        refine ⟨hr'.trans hr.symm, hw'.trans hw.symm, by simp [execOne, h, h'], fun a ha => ?_⟩
        change a ∈ fp.writes r m at ha
        simp [hw] at ha

variable {T : Type} [DecidableEq T] (fp : Footprints p)

/-- Threads that start with these registers on this memory. -/
def start (regs : T → Regs) (mem : Mem) : Config T (Option Regs) Addr (BitVec 8) :=
  ⟨fun i => some (regs i), mem⟩

/-- A thread is left only where the handlers can preempt it, or when it exits. -/
def LeftAtSwitchPoints (shared : Finset Addr) (es : List (Event T Addr)) : Prop :=
  es.IsChain fun e f => e.thread ≠ f.thread →
    (∃ touched : Finset Addr, (touched : Set Addr) = e.touched ∧ CanPreempt shared touched) ∨
      e.exits = true

/-- The kernel bytes of an executed instruction are a finite set. -/
theorem exists_touched {s : Config T (Option Regs) Addr (BitVec 8)} {σ : List T}
    {e : Event T Addr} (he : e ∈ trace fp.machine s σ) :
    ∃ touched : Finset Addr, (touched : Set Addr) = e.touched := by
  obtain ⟨t, i, rfl⟩ := exists_event_of_mem_trace _ he
  simp only [event, Event.touched, Footprints.machine]
  cases hr : t.regs i with
  | none => exact ⟨∅, by simp⟩
  | some r =>
    cases h : p.fetch r t.mem with
    | exec touched w r' m' => exact ⟨touched, fp.touched h⟩
    | swi r' =>
      obtain ⟨-, hr, hw⟩ := fp.trap h
      exact ⟨∅, by simp [hr, hw]⟩

omit [DecidableEq T] in
theorem leftAtSwitchPoints_of_reduced {shared : Finset Addr}
    {es : List (Event T Addr)} (hf : ∀ e ∈ es, ∃ t : Finset Addr, (t : Set Addr) = e.touched)
    (h : Reduced (shared : Set Addr) es) : LeftAtSwitchPoints shared es := by
  refine h.imp_of_mem_imp fun e f he _ hef hne => ?_
  rcases hef hne with hs | hx
  · obtain ⟨t, ht⟩ := hf e he
    refine .inl ⟨t, ht, (canPreempt_iff shared t).mpr ?_⟩
    rw [← Finset.coe_nonempty, Finset.coe_inter, ht, Set.inter_comm]
    exact hs
  · exact .inr hx

/-- Switching only after touches of shared memory loses no final memory: every complete
instruction-level interleaving has one with the same final memory, no more preemptions,
and switches only at the points where the handlers can preempt or a thread exits. -/
theorem switch_points_suffice (regs : T → Regs) (mem : Mem) (shared : Finset Addr) (σ : List T)
    (hσ : Complete fp.machine (start regs mem) σ)
    (hshared : ∀ e ∈ trace fp.machine (start regs mem) σ,
      ∀ f ∈ trace fp.machine (start regs mem) σ, e.thread ≠ f.thread →
        ∀ a, e.Conflict f a → a ∈ shared) :
    ∃ τ, Complete fp.machine (start regs mem) τ ∧
      (run fp.machine (start regs mem) τ).mem = (run fp.machine (start regs mem) σ).mem ∧
      LeftAtSwitchPoints shared (trace fp.machine (start regs mem) τ) ∧
      preemptions (trace fp.machine (start regs mem) τ) ≤
        preemptions (trace fp.machine (start regs mem) σ) := by
  obtain ⟨τ, hτ, hrun, -, hred, hpre⟩ :=
    exists_reduced fp.machine (A := Addr) hσ hshared
  refine ⟨τ, hτ, congrArg Config.mem hrun, ?_, hpre⟩
  exact leftAtSwitchPoints_of_reduced (fun e he => exists_touched fp he) hred

end Threads

section Counter

/-- Each thread increments the byte at address 0 and exits. -/
def counter : Platform where
  fetch r m :=
    if r REGS_PC = 0#32 then
      .exec {0} true (Function.update r REGS_PC 4) (Function.update m 0 (m 0 + 1))
    else .swi (fun _ => EQUIV_EXIT)
  user_cpsr := 0
  sys_equiv_exit := 4
  kmalloc_aligned _ := 0

def counterFootprint (r : Regs) : Set Addr := if r REGS_PC = 0#32 then {0} else ∅

def counterFootprints : Footprints counter where
  reads r _ := counterFootprint r
  writes r _ := counterFootprint r
  trap {r m r'} h := by
    by_cases hr : r REGS_PC = 0#32
    · simp [counter, hr] at h
    · simp [counter, hr] at h
      simp [counterFootprint, hr, ← h]
  touched {r m t w r' m'} h := by
    by_cases hr : r REGS_PC = 0#32
    · simp [counter, hr] at h
      simp [counterFootprint, hr, ← h.1]
    · simp [counter, hr] at h
  frame {r m t w r' m'} h a ha := by
    by_cases hr : r REGS_PC = 0#32
    · simp [counter, hr] at h
      have ha' : a ≠ 0#32 := by simpa [counterFootprint, hr] using ha
      simp [← h.2.2.2, ha']
    · simp [counter, hr] at h
  trap_locality {r m m' r'} _ h := by
    by_cases hr : r REGS_PC = 0#32
    · simp [counter, hr] at h
    · simpa [counter, hr] using h
  exec_locality {r m m' t w r' m₁} hm h := by
    by_cases hr : r REGS_PC = 0#32
    · have h0 : m' 0#32 = m 0#32 := hm 0#32 (by simp [counterFootprint, hr])
      simp [counter, hr] at h ⊢
      obtain ⟨rfl, rfl, rfl, rfl⟩ := h
      simp [counterFootprint, hr, h0]
    · simp [counter, hr] at h

theorem counter_conflict {s : Config (Fin 2) (Option Regs) Addr (BitVec 8)} {σ : List (Fin 2)}
    {e f : Event (Fin 2) Addr} (he : e ∈ trace counterFootprints.machine s σ) {a : Addr}
    (h : e.Conflict f a) : a ∈ ({0} : Finset Addr) := by
  have ha := h.touched_left
  obtain ⟨t, i, rfl⟩ := exists_event_of_mem_trace _ he
  simp only [event, Event.touched, Footprints.machine] at ha
  cases hr : t.regs i with
  | none => simp [hr] at ha
  | some r =>
    by_cases hr0 : r REGS_PC = 0#32 <;>
      simp [hr, counterFootprints, counterFootprint, hr0] at ha ⊢
    exact ha

/-- Two increments, each thread left before its exit. -/
theorem switch_points_suffice_counter :
    ∃ τ, Complete counterFootprints.machine (start (fun _ : Fin 2 => fun _ => 0) (fun _ => 0)) τ ∧
      (run counterFootprints.machine (start (fun _ => fun _ => 0) (fun _ => 0)) τ).mem =
        (run counterFootprints.machine (start (fun _ => fun _ => 0) (fun _ => 0)) [0, 1, 0, 1]).mem ∧
      LeftAtSwitchPoints {0}
        (trace counterFootprints.machine (start (fun _ => fun _ => 0) (fun _ => 0)) τ) ∧
      preemptions (trace counterFootprints.machine (start (fun _ => fun _ => 0) (fun _ => 0)) τ) ≤
        preemptions (trace counterFootprints.machine
          (start (fun _ => fun _ => 0) (fun _ => 0)) [0, 1, 0, 1]) :=
  switch_points_suffice counterFootprints (fun _ => fun _ => 0) (fun _ => 0) {0} [0, 1, 0, 1]
    ⟨⟨rfl, rfl, rfl, rfl, trivial⟩, by decide⟩
    (fun _ he _ _ _ _ h => counter_conflict he h)

end Counter

end EquivChecker.SwitchPoints
