import EquivChecker.Interleaver

/-!
# The run queue at the start of a run

`run_interleavings` forks its threads, which queues them, and then queues them a
second and a third time with `reset_threads` before the first run. With a queue
linked through the threads this closes a cycle.
-/

namespace EquivChecker.Interleaver

open Checker Intrusive

/-- Popping the queue yields every thread once and then nothing. -/
def QueuedOnce (threads : List ℕ) (q : Intrusive ℕ) : Prop :=
  ∃ l, l.Perm threads ∧ RunQueue.Yields q l

/-- `run_interleavings` on the given functions calls `equiv_run` in state `e` with these
thread order and counts. -/
inductive Enters (u : Setup) (executables : List FunctionExec) (s₀ : Checker (Intrusive ℕ)) :
    List ℕ → List ℕ → Checker (Intrusive ℕ) → Prop where
  | first {s x e} (hprologue : prologue u.platform executables s₀ = .ok (u.threads, s))
      (hstart : u.start s = .ok x)
      (henter : enter u.platform u.init u.shared_memory u.threads
        (u.schedule x.tids x.instr_nums) s = .ok e) :
      Enters u executables s₀ x.tids x.instr_nums e
  | next {tids instr_nums e fuel t tids' instr_nums' e'}
      (h : Enters u executables s₀ tids instr_nums e)
      (hrun : equiv_run u.platform fuel e = .ok (.finished t))
      (hnext : u.next_schedule t.ctx_switch_status.ctx_switch tids instr_nums =
        .ok (some (tids', instr_nums')))
      (henter : enter u.platform u.init u.shared_memory u.threads
        (u.schedule tids' instr_nums') (leave t) = .ok e') :
      Enters u executables s₀ tids' instr_nums' e'

variable {p : Platform} {s t : Checker (Intrusive ℕ)} {l : List ℕ}

theorem equiv_fork_spec {fn args : Word} {th : ℕ} (h : equiv_fork p fn args s = .ok (th, t)) :
    th = s.allocated ∧ t.allocated = s.allocated + 1 ∧
      t.equiv_runq = Intrusive.push th s.equiv_runq := by
  obtain ⟨u, hu, h⟩ := bind_ok_iff.mp h
  simp only [Except.ok.injEq, Prod.mk.injEq] at h
  obtain ⟨rfl, rfl⟩ := h
  exact ⟨rfl, rfl, rfl⟩

theorem equiv_refresh_spec {th : ℕ} (h : equiv_refresh p th s = .ok t) :
    t.equiv_runq = Intrusive.push th s.equiv_runq := by
  obtain ⟨u, hu, h⟩ := bind_ok_iff.mp h
  simp only [Except.ok.injEq] at h
  rw [← h]
  rfl

/-- Forking queues the new threads, the last one first. -/
theorem fork_threads_links {executables : List FunctionExec} {threads : List ℕ}
    (h : fork_threads p executables s = .ok (threads, t))
    (hl : Links s.equiv_runq.next s.equiv_runq.head l) (hold : ∀ e ∈ l, e < s.allocated) :
    Links t.equiv_runq.next t.equiv_runq.head (threads.reverse ++ l) ∧
      threads.length = executables.length := by
  induction executables generalizing s threads l with
  | nil =>
    simp only [fork_threads, Except.ok.injEq, Prod.mk.injEq] at h
    obtain ⟨rfl, rfl⟩ := h
    exact ⟨hl, rfl⟩
  | cons e executables ih =>
    obtain ⟨⟨th, v⟩, hv, h⟩ := bind_ok_iff.mp h
    obtain ⟨⟨ths, w⟩, hw, h⟩ := bind_ok_iff.mp h
    simp only [Except.ok.injEq, Prod.mk.injEq] at h
    obtain ⟨rfl, rfl⟩ := h
    obtain ⟨rfl, halloc, hq⟩ := equiv_fork_spec hv
    have hnew : s.allocated ∉ l := fun hm => absurd (hold _ hm) (lt_irrefl _)
    have hlinks : Links v.equiv_runq.next v.equiv_runq.head (s.allocated :: l) :=
      hq ▸ hl.push hnew
    obtain ⟨hlw, hlen⟩ := ih hw hlinks (by
      intro x hx
      rcases List.mem_cons.mp hx with rfl | hx
      · omega
      · have := hold x hx
        omega)
    exact ⟨by simpa using hlw, by simp [hlen]⟩

theorem reset_ntids_spec (h : reset_ntids s = .ok t) :
    t.equiv_runq = s.equiv_runq ∧ t.allocated = s.allocated ∧ s.equiv_runq.head = none := by
  unfold reset_ntids at h
  split at h
  · rename_i q hpop
    cases h
    refine ⟨rfl, rfl, ?_⟩
    cases hhead : s.equiv_runq.head with
    | none => rfl
    | some e =>
      change Intrusive.pop s.equiv_runq = _ at hpop
      simp [Intrusive.pop, hhead] at hpop
  · cases h

/-- Pushing queued threads again keeps the cycle. -/
theorem reset_threads_circular {threads : List ℕ} {S : Set ℕ} (h : reset_threads p threads s = .ok t)
    (hs : Circular s.equiv_runq S) (hmem : ∀ th ∈ threads, th ∈ S) : Circular t.equiv_runq S := by
  induction threads generalizing s with
  | nil =>
    cases h
    exact hs
  | cons th threads ih =>
    obtain ⟨v, hv, h⟩ := bind_ok_iff.mp h
    refine ih h ?_ fun x hx => hmem x (List.mem_cons_of_mem th hx)
    rw [equiv_refresh_spec hv]
    exact hs.push (hmem th List.mem_cons_self)

/-- The first `reset_threads` closes the cycle: the first thread is the tail of the queue. -/
theorem prologue_circular {executables : List FunctionExec} {threads : List ℕ}
    (h : prologue p executables s = .ok (threads, t)) (hne : executables ≠ []) :
    Circular t.equiv_runq {th | th ∈ threads} := by
  obtain ⟨⟨ths, v⟩, hinit, h⟩ := bind_ok_iff.mp h
  obtain ⟨w, hreset, h⟩ := bind_ok_iff.mp h
  simp only [Except.ok.injEq, Prod.mk.injEq] at h
  obtain ⟨rfl, rfl⟩ := h
  obtain ⟨r, hr, hfork⟩ := bind_ok_iff.mp hinit
  obtain ⟨hq, -, hhead⟩ := reset_ntids_spec hr
  have hlinks : Links r.equiv_runq.next r.equiv_runq.head [] := by
    rw [hq]
    exact hhead
  obtain ⟨hl, hlen⟩ := fork_threads_links hfork hlinks (by simp)
  cases ths with
  | nil =>
    have := List.length_pos_iff.mpr hne
    simp at hlen
    omega
  | cons th ths =>
    obtain ⟨x, hx, hreset⟩ := bind_ok_iff.mp hreset
    rw [List.append_nil, List.reverse_cons] at hl
    have hcirc : Circular x.equiv_runq {e | e ∈ ths.reverse ++ [th]} := by
      rw [equiv_refresh_spec hx]
      exact hl.push_tail
    have hset : {e | e ∈ ths.reverse ++ [th]} = {e | e ∈ th :: ths} := by
      ext e
      simp [or_comm]
    rw [hset] at hcirc
    exact reset_threads_circular hreset hcirc fun y hy => List.mem_cons_of_mem th hy

theorem enter_circular {init : Mem → Mem} {shared_memory : Finset Addr} {threads : List ℕ}
    {schedule : Schedule} {S : Set ℕ} (h : enter p init shared_memory threads schedule s = .ok t)
    (hs : Circular s.equiv_runq S) (hmem : ∀ th ∈ threads, th ∈ S) : Circular t.equiv_runq S := by
  obtain ⟨v, hv, h⟩ := bind_ok_iff.mp h
  cases h
  have hcirc : Circular v.equiv_runq S := reset_threads_circular hv hs hmem
  exact hcirc

/-- The queue that the first `equiv_run` finds is a cycle. -/
theorem first_circular {u : Setup} {executables : List FunctionExec} {s₀ : Checker (Intrusive ℕ)}
    (hne : executables ≠ []) {schedule : Schedule}
    (hprologue : prologue u.platform executables s₀ = .ok (u.threads, s))
    (henter : enter u.platform u.init u.shared_memory u.threads schedule s = .ok t) :
    Circular t.equiv_runq {th | th ∈ u.threads} :=
  enter_circular henter (prologue_circular hprologue hne) fun _ h => h

/-- Whenever `equiv_run` is called at all, the first call does not find every thread
queued once. -/
theorem not_queuedOnce (u : Setup) (executables : List FunctionExec) (s₀ : Checker (Intrusive ℕ))
    (hfuncs : 2 ≤ executables.length)
    (hentered : ∃ tids instr_nums e, Enters u executables s₀ tids instr_nums e) :
    ¬∀ tids instr_nums e, Enters u executables s₀ tids instr_nums e →
      QueuedOnce u.threads e.equiv_runq := by
  intro hall
  have hne : executables ≠ [] := by
    rintro rfl
    simp at hfuncs
  obtain ⟨tids, instr_nums, e, he⟩ := hentered
  induction he with
  | first hprologue hstart henter =>
    obtain ⟨l, -, hl⟩ := hall _ _ _ (.first hprologue hstart henter)
    exact (first_circular hne hprologue henter).not_yields l hl
  | next _ _ _ _ ih => exact ih

/-- Two functions at 0x9000, on a machine where every instruction exits. -/
def pair : Setup where
  platform := {
    fetch := fun regs _ => .swi (Function.update regs 0 EQUIV_EXIT)
    user_cpsr := 16
    sys_equiv_exit := 0x8000
    kmalloc_aligned := fun k => 0x100000 + 0x1000 * BitVec.ofNat 32 k }
  init := id
  shared_memory := ∅
  threads := [0, 1]
  ncs := 1
  report := false

def pairExecutables : List FunctionExec := [⟨0x9000, 0⟩, ⟨0x9000, 0⟩]

def pairStart : Checker (Intrusive ℕ) where
  equiv_runq := RunQueue.empty
  threads _ := ⟨fun _ => 0, 0, 0, 0, 0, 0⟩
  allocated := 0
  ntids := 1
  cur_thread := none
  ctx_switch_status := ⟨0, 0, false, false⟩
  schedule := none
  shared_memory := none
  pcs := []
  rw_tracker_enabled := false
  armed := false
  current_tracker := ⟨none, none⟩
  touch_handler := false
  mismatch := 0
  regs _ := 0
  mem _ := 0
  uart := []
  nullReads := 0

/-- The first iteration gets as far as `equiv_run`. -/
def entersFirst (u : Setup) (executables : List FunctionExec) (s₀ : Checker (Intrusive ℕ)) : Bool :=
  match prologue u.platform executables s₀ with
  | .ok (threads, s) => threads == u.threads && match u.start s with
    | .ok x => (enter u.platform u.init u.shared_memory u.threads
        (u.schedule x.tids x.instr_nums) s).isOk
    | .error _ => false
  | .error _ => false

theorem exists_first {u : Setup} {executables : List FunctionExec} {s₀ : Checker (Intrusive ℕ)}
    (h : entersFirst u executables s₀ = true) : ∃ s x e,
      prologue u.platform executables s₀ = .ok (u.threads, s) ∧ u.start s = .ok x ∧
        enter u.platform u.init u.shared_memory u.threads (u.schedule x.tids x.instr_nums) s =
          .ok e := by
  unfold entersFirst at h
  split at h
  · rename_i threads s hprologue
    rw [Bool.and_eq_true, beq_iff_eq] at h
    obtain ⟨rfl, h⟩ := h
    split at h
    · rename_i x hstart
      generalize henter : enter u.platform u.init u.shared_memory u.threads _ s = r at h
      cases r with
      | ok e => exact ⟨s, x, e, hprologue, hstart, henter⟩
      | error _ => cases h
    · cases h
  · cases h

theorem pair_first : ∃ s x e,
    prologue pair.platform pairExecutables pairStart = .ok (pair.threads, s) ∧ pair.start s = .ok x ∧
      enter pair.platform pair.init pair.shared_memory pair.threads
        (pair.schedule x.tids x.instr_nums) s = .ok e :=
  exists_first (by decide +kernel)

/-- With two functions the first `equiv_run` pops its two threads forever. -/
theorem pair_cycle : ∃ tids instr_nums e, Enters pair pairExecutables pairStart tids instr_nums e ∧
    ¬QueuedOnce pair.threads e.equiv_runq := by
  obtain ⟨s, x, e, hprologue, hstart, henter⟩ := pair_first
  refine ⟨_, _, e, .first hprologue hstart henter, ?_⟩
  rintro ⟨l, -, hl⟩
  exact (first_circular (by simp [pairExecutables]) hprologue henter).not_yields l hl

theorem not_queuedOnce_pair : ¬∀ tids instr_nums e,
    Enters pair pairExecutables pairStart tids instr_nums e →
      QueuedOnce pair.threads e.equiv_runq := by
  obtain ⟨s, x, e, hprologue, hstart, henter⟩ := pair_first
  exact not_queuedOnce pair pairExecutables pairStart (by decide)
    ⟨_, _, e, .first hprologue hstart henter⟩

end EquivChecker.Interleaver
