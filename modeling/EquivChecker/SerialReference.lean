import EquivChecker.Exploration
import EquivChecker.Verdict

/-!
# Threads that run one after another

`find_good_hashes` calls a function with its own argument; a thread that `init_threads`
has forked starts it with the argument NULL, and so does every refresh. Both are compared
when the threads run one after another to completion.
-/

namespace EquivChecker.SerialReference

open Interleaver Checker Verdict SetTrie Permutations

/-- User code runs from the given registers and memory up to its exit call. -/
inductive Exits (p : Platform) : Regs → Mem → Regs → Mem → Prop where
  | exit {regs regs' : Regs} {mem : Mem} (hfetch : p.fetch regs mem = .swi regs')
      (hexit : regs' 0 = EQUIV_EXIT) : Exits p regs mem regs' mem
  | step {regs regs₁ regs' : Regs} {mem mem₁ mem' : Mem} {touched : Finset Addr} {w : Bool}
      (hfetch : p.fetch regs mem = .exec touched w regs₁ mem₁) (h : Exits p regs₁ mem₁ regs' mem') :
      Exits p regs mem regs' mem'

/-- The calls that `find_good_hashes` makes. -/
def calls (executables : List FunctionExec) : Set (Word × Word) :=
  {c | ∃ e ∈ executables, c = (e.func_addr, e.var_list)}

/-- The calls that the threads of `init_threads` make. -/
def threadCalls (executables : List FunctionExec) : Set (Word × Word) :=
  {c | ∃ e ∈ executables, c = (e.func_addr, 0)}

/-- One of the threads, which starts one of the calls on the stack in its own block. -/
structure Starts (p : Platform) (cs : Set (Word × Word)) (ths : Set ℕ) (x : ℕ) (t : EqTh) : Prop where
  thread : x ∈ ths
  call : (t.fn, t.args) ∈ cs
  stack_start : t.stack_start = p.kmalloc_aligned x
  stack_end : t.stack_end = p.kmalloc_aligned x + stack_size

/-- On this machine the threads that start the calls do to memory what `call` says, and exit with the
stack pointer that they were started with. The bytes of the stacks, `scratch`, do not count: a thread
may leave anything there, and what it does elsewhere does not depend on what it finds there. -/
structure Realises (p : Platform) (cs : Set (Word × Word)) (ths : Set ℕ) (scratch : Set Addr)
    (call : Word → Word → Mem → Mem) : Prop where
  stack_fits : ∀ x ∈ ths, p.kmalloc_aligned x ≤ p.kmalloc_aligned x + stack_size
  runs : ∀ x t, Starts p cs ths x t → ∀ mem mem₀, Set.EqOn mem mem₀ scratchᶜ → ∃ regs mem',
    Exits p (equiv_regs_init p t) mem regs mem' ∧ regs REGS_SP = t.stack_end ∧
      Set.EqOn mem' (call t.fn t.args mem₀) scratchᶜ

/-- The threads that `init_threads` builds are refreshed, so that they are queued in the given
order, and run without a schedule. -/
def run_threads (p : Platform) (executables : List FunctionExec) (order : List ℕ) (mem : Mem)
    (fuel : ℕ) (b : Checker (List ℕ)) : Except Fault (Progress (Checker (List ℕ))) := do
  let (threads, s) ← init_threads p executables (disable_ctx_switch b)
  let s ← reset_threads p (order.reverse.map fun k => threads.getD k 0) { s with equiv_runq := [], mem }
  equiv_run p fuel s

variable {p : Platform} {call : Word → Word → Mem → Mem} {s t v : Checker (List ℕ)} {th : ℕ}
  {rest : List ℕ} {regs regs' : Regs} {mem mem' : Mem} {executables : List FunctionExec}
  {cs : Set (Word × Word)} {ths : Set ℕ} {scratch : Set Addr}

theorem threadCalls_eq (hnull : ∀ e ∈ executables, e.var_list = 0) :
    threadCalls executables = calls executables := by
  ext c
  refine exists_congr fun e => and_congr_right fun he => ?_
  rw [hnull e he]

theorem Realises.stack (hp : Realises p cs ths scratch call) {x : ℕ} {t : EqTh} (h : Starts p cs ths x t) :
    t.stack_start ≤ t.stack_end := by
  rw [h.stack_start, h.stack_end]
  exact hp.stack_fits x h.thread

section Steps

/-- A thread runs with no schedule. -/
structure Running (s : Checker (List ℕ)) (th : ℕ) (rest : List ℕ) : Prop where
  schedule : s.schedule = none
  unmarked : s.ctx_switch_status.do_instr_count = false
  current : s.cur_thread = some th
  queue : s.equiv_runq = rest

/-- Only the saved registers of the current thread may have changed. -/
def SameThreads (th : ℕ) (s t : Checker (List ℕ)) : Prop :=
  (∀ x, (t.threads x).frame = (s.threads x).frame) ∧ ∀ x, x ≠ th → t.threads x = s.threads x

theorem SameThreads.trans (h : SameThreads th s t) (h' : SameThreads th t v) : SameThreads th s v :=
  ⟨fun x => (h'.1 x).trans (h.1 x), fun x hx => (h'.2 x hx).trans (h.2 x hx)⟩

theorem SameThreads.stack (h : SameThreads th s t) (x : ℕ) :
    (t.threads x).stack_start = (s.threads x).stack_start ∧
      (t.threads x).stack_end = (s.threads x).stack_end := by
  have hframe := h.1 x
  simp only [EqTh.frame, EqTh.mk.injEq] at hframe
  exact ⟨hframe.2.2.2.2.1, hframe.2.2.2.2.2⟩

theorem sameThreads_save (th : ℕ) (s : Checker (List ℕ)) : SameThreads th s (save th s) := by
  constructor
  · intro x
    by_cases hx : x = th
    · rw [hx]
      simp [save, setThread, EqTh.frame]
    · simp [save, setThread, hx]
  · intro x hx
    simp [save, setThread, hx]

theorem Running.prefetch (h : Running s th rest) : ∃ v, Checker.prefetch s = .ok v ∧
    Running v th rest ∧ v.regs = s.regs ∧ v.mem = s.mem ∧ SameThreads th s v := by
  obtain ⟨hschedule, hunmarked, hcurrent, hqueue⟩ := h
  unfold Checker.prefetch
  split
  · exact ⟨s, rfl, ⟨hschedule, hunmarked, hcurrent, hqueue⟩, rfl, rfl, fun _ => rfl, fun _ _ => rfl⟩
  · have hhandled := equiv_hash_handler_iff.mpr (Handled.unmarked hcurrent hunmarked)
    have hthreads := sameThreads_save th s.rw_tracker_arm
    refine ⟨_, bind_ok_iff.mpr ⟨_, hhandled, rfl⟩, ?_, ?_, ?_, ?_⟩
    · constructor <;> simp [saved, save, setThread, *]
    · simp [saved, save, setThread]
    · simp [saved, save, setThread, rw_tracker_arm, apply_ite Checker.mem]
    · simpa [saved, SameThreads] using hthreads

/-- Data aborts count nothing without a schedule. -/
theorem Running.access (h : Running s th rest) (touched : Finset Addr) (w : Bool) :
    ∃ v, Checker.access touched w s = .ok v ∧ Running v th rest ∧ v.threads = s.threads := by
  obtain ⟨hschedule, hunmarked, hcurrent, hqueue⟩ := h
  unfold Checker.access
  split
  · have htouch : memory_touch_handler touched s = .ok s := by
      simp [memory_touch_handler, Checker.ctx_switch_handler, hschedule]
    exact ⟨_, bind_ok_iff.mpr ⟨s, htouch, rfl⟩, ⟨hschedule, hunmarked, hcurrent, hqueue⟩, rfl⟩
  · exact ⟨s, rfl, ⟨hschedule, hunmarked, hcurrent, hqueue⟩, rfl⟩

theorem steps_running {i : ℕ} (h : steps p i s = .ok (.running t)) (j : ℕ) :
    steps p (i + j) s = steps p j t := by
  induction i generalizing s with
  | zero =>
    cases h
    rw [Nat.zero_add]
  | succ i ih =>
    rw [Nat.add_right_comm]
    obtain ⟨r, hr, h⟩ := bind_ok_iff.mp h
    cases r with
    | running v =>
      rw [← ih h, steps, hr]
      rfl
    | finished v => cases h

/-- A thread runs up to its exit call. -/
theorem Exits.steps (h : Exits p regs mem regs' mem') (hs : Running s th rest)
    (hregs : s.regs = regs) (hmem : s.mem = mem) : ∃ fuel v t, Checker.steps p fuel s = .ok (.running v) ∧
      Checker.prefetch v = .ok t ∧ Running t th rest ∧ p.fetch t.regs t.mem = .swi regs' ∧
      regs' 0 = EQUIV_EXIT ∧ t.mem = mem' ∧ SameThreads th s t := by
  induction h generalizing s with
  | exit hfetch hexit =>
    obtain ⟨t, ht, hrun, htregs, htmem, hthreads⟩ := hs.prefetch
    refine ⟨0, s, t, rfl, ht, hrun, ?_, hexit, htmem.trans hmem, hthreads⟩
    rw [htregs, htmem, hregs, hmem, hfetch]
  | @step regs regs₁ regs' mem mem₁ mem' touched w hfetch _ ih =>
    obtain ⟨v, hv, hrun, hvregs, hvmem, hthreads⟩ := hs.prefetch
    obtain ⟨u, hu, hrun', huthreads⟩ := hrun.access touched w
    have hstep : Checker.step p s = .ok (.running { u with regs := regs₁, mem := mem₁ }) :=
      step_exec hv (by rw [hvregs, hvmem, hregs, hmem, hfetch]) hu
    have hnext : Running { u with regs := regs₁, mem := mem₁ } th rest :=
      ⟨hrun'.schedule, hrun'.unmarked, hrun'.current, hrun'.queue⟩
    obtain ⟨fuel, v', t, hsteps, ht, hrest, hswi, hexit, htmem, hthreads'⟩ := ih hnext rfl rfl
    refine ⟨1 + fuel, v', t, ?_, ht, hrest, hswi, hexit, htmem, ?_⟩
    · have hone : Checker.steps p 1 s = .ok (.running { u with regs := regs₁, mem := mem₁ }) :=
        bind_ok_iff.mpr ⟨_, hstep, rfl⟩
      rw [steps_running hone, hsteps]
    · refine hthreads.trans (SameThreads.trans ⟨?_, ?_⟩ hthreads')
      · intro x
        simp [huthreads]
      · intro x _
        simp [huthreads]

theorem check_sp_exit (hsp : regs' REGS_SP = (t.threads th).stack_end)
    (hstack : (t.threads th).stack_start ≤ (t.threads th).stack_end) :
    check_sp ((save th { t with regs := regs' }).threads th) = .ok () := by
  simp [check_sp, save, setThread, hsp, hstack]

/-- The exit of the last thread ends the run. -/
theorem Running.exit_last (h : Running t th []) (hv : Checker.prefetch s = .ok t)
    (hfetch : p.fetch t.regs t.mem = .swi regs') (hexit : regs' 0 = EQUIV_EXIT)
    (hsp : regs' REGS_SP = (t.threads th).stack_end)
    (hstack : (t.threads th).stack_start ≤ (t.threads th).stack_end) :
    ∃ v, Checker.step p s = .ok (.finished v) ∧ v.mem = t.mem :=
  ⟨_, step_swi hv hfetch (.exit_last h.current (check_sp_exit hsp hstack) hexit h.queue), rfl⟩

/-- After an exit the next thread runs. -/
theorem Running.exit_next {next : ℕ} (h : Running t th (next :: rest))
    (hv : Checker.prefetch s = .ok t) (hfetch : p.fetch t.regs t.mem = .swi regs')
    (hexit : regs' 0 = EQUIV_EXIT) (hsp : regs' REGS_SP = (t.threads th).stack_end)
    (hstack : (t.threads th).stack_start ≤ (t.threads th).stack_end) (hne : next ≠ th) :
    ∃ v, Checker.step p s = .ok (.running v) ∧ Running v next rest ∧
      v.regs = (t.threads next).regs ∧ v.mem = t.mem ∧ SameThreads th t v := by
  refine ⟨_, step_swi hv hfetch (.exit_next h.current (check_sp_exit hsp hstack) hexit h.queue),
    ⟨rfl, h.unmarked, rfl, rfl⟩, ?_, rfl, ?_⟩
  · simp [mismatch_run, save, setThread, hne]
  · exact sameThreads_save th { t with regs := regs' }

/-- A thread that starts a call comes to its exit. -/
theorem Realises.exits (hp : Realises p cs ths scratch call) (hs : Running s th rest)
    (hregs : s.regs = equiv_regs_init p (s.threads th)) (hstarts : Starts p cs ths th (s.threads th))
    (hmem : Set.EqOn s.mem mem scratchᶜ) : ∃ fuel v t regs', Checker.steps p fuel s = .ok (.running v) ∧
      Checker.prefetch v = .ok t ∧ Running t th rest ∧ p.fetch t.regs t.mem = .swi regs' ∧
      regs' 0 = EQUIV_EXIT ∧ regs' REGS_SP = (t.threads th).stack_end ∧
      (t.threads th).stack_start ≤ (t.threads th).stack_end ∧ SameThreads th s t ∧
      Set.EqOn t.mem (call (s.threads th).fn (s.threads th).args mem) scratchᶜ := by
  obtain ⟨regs', mem', hexits, hsp, heffect⟩ := hp.runs th _ hstarts _ mem hmem
  obtain ⟨fuel, v, t, hsteps, ht, hrun, hswi, hexit, rfl, hsame⟩ := hexits.steps hs hregs rfl
  obtain ⟨hstart, hend⟩ := hsame.stack th
  refine ⟨fuel, v, t, regs', hsteps, ht, hrun, hswi, hexit, hsp.trans hend.symm, ?_, hsame, heffect⟩
  rw [hend, hstart]
  exact hp.stack hstarts

/-- The queued threads run one after another, each from its saved registers. -/
theorem all_exit (hp : Realises p cs ths scratch call) (hs : Running s th rest)
    (hregs : s.regs = equiv_regs_init p (s.threads th)) (hnodup : (th :: rest).Nodup)
    (hstarts : ∀ x ∈ th :: rest, Starts p cs ths x (s.threads x))
    (hrest : ∀ x ∈ rest, (s.threads x).regs = equiv_regs_init p (s.threads x))
    (hmem : Set.EqOn s.mem mem scratchᶜ) :
    ∃ fuel t, steps p fuel s = .ok (.finished t) ∧ Set.EqOn t.mem ((th :: rest).foldl
      (fun mem x => call (s.threads x).fn (s.threads x).args mem) mem) scratchᶜ := by
  induction rest generalizing s th mem with
  | nil =>
    obtain ⟨fuel, v, t, regs', hsteps, ht, hrun, hswi, hexit, hsp, hstack, -, heffect⟩ :=
      hp.exits hs hregs (hstarts th List.mem_cons_self) hmem
    obtain ⟨w, hw, hwmem⟩ := hrun.exit_last ht hswi hexit hsp hstack
    refine ⟨fuel + 1, w, ?_, ?_⟩
    · rw [steps_running hsteps 1]
      exact bind_ok_iff.mpr ⟨_, hw, rfl⟩
    · rw [hwmem]
      exact heffect
  | cons next rest ih =>
    obtain ⟨hth, hnodup'⟩ := List.nodup_cons.mp hnodup
    have hne : ∀ x ∈ next :: rest, x ≠ th := fun x hx h => hth (h ▸ hx)
    obtain ⟨fuel, v, t, regs', hsteps, ht, hrun, hswi, hexit, hsp, hstack, ⟨-, hothers⟩, heffect⟩ :=
      hp.exits hs hregs (hstarts th List.mem_cons_self) hmem
    obtain ⟨w, hw, hwrun, hwregs, hwmem, -, hwothers⟩ :=
      hrun.exit_next ht hswi hexit hsp hstack (hne next List.mem_cons_self)
    have hsame : ∀ x ∈ next :: rest, w.threads x = s.threads x := fun x hx =>
      (hwothers x (hne x hx)).trans (hothers x (hne x hx))
    have hwregs' : w.regs = equiv_regs_init p (w.threads next) := by
      have hnext := hsame next List.mem_cons_self
      rw [hwregs, hothers next (hne next List.mem_cons_self), hnext]
      exact hrest next List.mem_cons_self
    have hwstarts : ∀ x ∈ next :: rest, Starts p cs ths x (w.threads x) := by
      intro x hx
      rw [hsame x hx]
      exact hstarts x (List.mem_cons_of_mem th hx)
    have hwrest : ∀ x ∈ rest, (w.threads x).regs = equiv_regs_init p (w.threads x) := by
      intro x hx
      rw [hsame x (List.mem_cons_of_mem next hx)]
      exact hrest x (List.mem_cons_of_mem next hx)
    obtain ⟨fuel', z, hz, hzmem⟩ := ih hwrun hwregs' hnodup' hwstarts hwrest (hwmem ▸ heffect)
    have hfold := List.foldl_ext (fun mem x => call (w.threads x).fn (w.threads x).args mem)
      (fun mem x => call (s.threads x).fn (s.threads x).args mem)
      (call (s.threads th).fn (s.threads th).args mem)
      fun mem x (hx : x ∈ next :: rest) => by rw [hsame x hx]
    have hone : steps p 1 v = .ok (.running w) := bind_ok_iff.mpr ⟨_, hw, rfl⟩
    refine ⟨fuel + (1 + fuel'), z, ?_, ?_⟩
    · rw [steps_running hsteps, steps_running hone, hz]
    · rw [hfold] at hzmem
      exact hzmem

end Steps

/-- The thread that `init_threads` has made for a function. -/
structure Forked (p : Platform) (e : FunctionExec) (x : ℕ) (t : EqTh) : Prop where
  fn : t.fn = e.func_addr
  args : t.args = 0
  stack_start : t.stack_start = p.kmalloc_aligned x
  stack_end : t.stack_end = p.kmalloc_aligned x + stack_size

theorem Forked.starts {e : FunctionExec} {x : ℕ} {t : EqTh} (h : Forked p e x t) (he : e ∈ executables)
    (hx : x ∈ ths) : Starts p (threadCalls executables) ths x t :=
  ⟨hx, ⟨e, he, by rw [h.fn, h.args]⟩, h.stack_start, h.stack_end⟩

theorem equiv_fork_forked (e : FunctionExec) (s : Checker (List ℕ))
    (hfits : p.kmalloc_aligned s.allocated ≤ p.kmalloc_aligned s.allocated + stack_size) :
    ∃ t, equiv_fork p e.func_addr 0 s = .ok (s.allocated, t) ∧ t.schedule = s.schedule ∧
      t.ctx_switch_status = s.ctx_switch_status ∧ t.allocated = s.allocated + 1 ∧
      (∀ x, x ≠ s.allocated → t.threads x = s.threads x) ∧
      Forked p e s.allocated (t.threads s.allocated) := by
  refine ⟨_, bind_ok_iff.mpr ⟨(), ?_, rfl⟩, rfl, rfl, rfl, fun x hx => ?_, ?_⟩
  · simp [check_sp, equiv_regs_init, REGS_SP, REGS_PC, hfits]
  · simp [setThread, hx]
  · constructor <;> simp [setThread]

theorem fork_threads_spec (executables : List FunctionExec) (s : Checker (List ℕ))
    (hfits : ∀ x, s.allocated ≤ x → x < s.allocated + executables.length →
      p.kmalloc_aligned x ≤ p.kmalloc_aligned x + stack_size) : ∃ t,
    fork_threads p executables s = .ok (List.range' s.allocated executables.length, t) ∧
      t.schedule = s.schedule ∧ t.ctx_switch_status = s.ctx_switch_status ∧
      (∀ x < s.allocated, t.threads x = s.threads x) ∧
      ∀ k e, executables[k]? = some e → Forked p e (s.allocated + k) (t.threads (s.allocated + k)) := by
  induction executables generalizing s with
  | nil => exact ⟨s, rfl, rfl, rfl, fun _ _ => rfl, fun k e h => by simp at h⟩
  | cons e executables ih =>
    rw [List.length_cons] at hfits
    obtain ⟨v, hv, hvschedule, hvstatus, hvalloc, hvold, hvnew⟩ :=
      equiv_fork_forked e s (hfits _ le_rfl (by omega))
    obtain ⟨t, ht, hschedule, hstatus, hold, hforked⟩ := ih v fun x hx hlt =>
      hfits x (by omega) (by omega)
    rw [hvalloc] at ht hold hforked
    refine ⟨t, ?_, hschedule.trans hvschedule, hstatus.trans hvstatus, ?_, ?_⟩
    · refine bind_ok_iff.mpr ⟨_, hv, bind_ok_iff.mpr ⟨_, ht, ?_⟩⟩
      rw [List.length_cons, List.range'_succ]
    · intro x hx
      rw [hold x (by omega), hvold x (by omega)]
    · intro k e' hk
      cases k with
      | zero =>
        cases hk
        rw [Nat.add_zero, hold _ (Nat.lt_succ_self _)]
        exact hvnew
      | succ k =>
        rw [show s.allocated + (k + 1) = s.allocated + 1 + k by omega]
        exact hforked k e' hk

theorem equiv_run_start_queue (hschedule : s.schedule = none) (hq : s.equiv_runq = th :: rest) :
    equiv_run_start s = .ok { s with
      equiv_runq := rest, cur_thread := some th, mismatch := 0, regs := (s.threads th).regs } := by
  simp [equiv_run_start, hschedule, hq]

/-- Threads that are queued in some order run in this order. -/
theorem run_queue (hp : Realises p cs ths scratch call) (hschedule : s.schedule = none)
    (hunmarked : s.ctx_switch_status.do_instr_count = false) {order : List ℕ} (hne : order ≠ [])
    (hnodup : order.Nodup) (hstarts : ∀ x ∈ order, Starts p cs ths x (s.threads x)) (mem : Mem) :
    ∃ fuel t, (reset_threads p order.reverse { s with equiv_runq := [], mem } >>= equiv_run p fuel) =
        .ok (.finished t) ∧ Set.EqOn t.mem
      (order.foldl (fun mem x => call (s.threads x).fn (s.threads x).args mem) mem) scratchᶜ := by
  have hsp : ∀ x ∈ order.reverse, check_sp (refreshed p (s.threads x)) = .ok () := by
    intro x hx
    simp [check_sp, refreshed, equiv_regs_init, REGS_SP, REGS_PC,
      hp.stack (hstarts x (List.mem_reverse.mp hx))]
  have hreset : reset_threads p order.reverse { s with equiv_runq := [], mem } = .ok { s with
      mem, threads := refreshAll p order.reverse s.threads, equiv_runq := order.reverse.reverse ++ [] } :=
    reset_threads_iff.mpr ⟨hsp, rfl⟩
  have hthreads : ∀ x ∈ order, refreshAll p order.reverse s.threads x = refreshed p (s.threads x) :=
    fun x hx => if_pos (List.mem_reverse.mpr hx)
  obtain ⟨th, rest, rfl⟩ := List.exists_cons_of_ne_nil hne
  rw [List.reverse_reverse] at hreset
  have hstart := equiv_run_start_queue (s := { s with
    mem, threads := refreshAll p (th :: rest).reverse s.threads, equiv_runq := (th :: rest) ++ [] })
    hschedule (List.append_nil (th :: rest))
  have hregs : ∀ x ∈ th :: rest, (refreshAll p (th :: rest).reverse s.threads x).regs =
      equiv_regs_init p (refreshAll p (th :: rest).reverse s.threads x) := by
    intro x hx
    rw [hthreads x hx]
    rfl
  have hstarts' : ∀ x ∈ th :: rest, Starts p cs ths x (refreshAll p (th :: rest).reverse s.threads x) := by
    intro x hx
    rw [hthreads x hx]
    exact ⟨(hstarts x hx).thread, (hstarts x hx).call, (hstarts x hx).stack_start, (hstarts x hx).stack_end⟩
  obtain ⟨fuel, t, hsteps, hmem⟩ := all_exit (s := { s with
      mem, threads := refreshAll p (th :: rest).reverse s.threads, equiv_runq := rest
      cur_thread := some th, mismatch := 0
      regs := (refreshAll p (th :: rest).reverse s.threads th).regs })
    hp ⟨hschedule, hunmarked, rfl, rfl⟩ (hregs th List.mem_cons_self) hnodup hstarts'
    (fun x hx => hregs x (List.mem_cons_of_mem th hx)) (Set.eqOn_refl mem _)
  have hfold := List.foldl_ext
    (fun mem x => call (refreshAll p (th :: rest).reverse s.threads x).fn
      (refreshAll p (th :: rest).reverse s.threads x).args mem)
    (fun mem x => call (s.threads x).fn (s.threads x).args mem) mem
    fun mem x (hx : x ∈ th :: rest) => by
      rw [hthreads x hx]
      rfl
  refine ⟨fuel, t, bind_ok_iff.mpr ⟨_, hreset, bind_ok_iff.mpr ⟨_, hstart, hsteps⟩⟩, ?_⟩
  rw [hfold] at hmem
  exact hmem

/-- The numbers that `init_threads` gives. -/
def newThreads (b : Checker (List ℕ)) (executables : List FunctionExec) : Set ℕ :=
  {x | b.allocated ≤ x ∧ x < b.allocated + executables.length}

/-- The threads leave memory as serial execution with the argument NULL does. -/
theorem run_threads_spec {b : Checker (List ℕ)}
    (hp : Realises p (threadCalls executables) (newThreads b executables) scratch call) {order : List ℕ}
    (horder : order.Perm (List.range executables.length)) (hne : order ≠ []) (mem : Mem)
    (hb : b.equiv_runq = []) : ∃ fuel t,
      run_threads p executables order mem fuel b = .ok (.finished t) ∧
        Set.EqOn t.mem (serial call executables order mem) scratchᶜ := by
  have hlt : ∀ k ∈ order, k < executables.length := fun k hk =>
    List.mem_range.mp (horder.mem_iff.mp hk)
  have hnodup : order.Nodup := horder.nodup_iff.mpr List.nodup_range
  have hreset : reset_ntids (disable_ctx_switch b) = .ok { disable_ctx_switch b with ntids := 1 } := by
    simp [reset_ntids, disable_ctx_switch, reset_ctx_switch, hb]
  obtain ⟨s, hfork, hschedule, hstatus, -, hforked⟩ :=
    fork_threads_spec executables { disable_ctx_switch b with ntids := 1 }
      fun x hle hlt => hp.stack_fits x ⟨hle, hlt⟩
  have hunmarked : s.ctx_switch_status.do_instr_count = false :=
    congrArg CtxSwitchStatus.do_instr_count hstatus
  have hfirst : ({ disable_ctx_switch b with ntids := 1 } : Checker (List ℕ)).allocated = b.allocated := rfl
  rw [hfirst] at hfork hforked
  have hths : order.map (fun k => (List.range' b.allocated executables.length).getD k 0) =
      order.map (b.allocated + ·) := List.map_congr_left fun k hk => by simp [hlt k hk]
  have hof : ∀ k ∈ order,
      Forked p (executables.getD k ⟨0, 0⟩) (b.allocated + k) (s.threads (b.allocated + k)) := by
    intro k hk
    refine hforked k _ ?_
    simp [List.getD, List.getElem?_eq_getElem (hlt k hk)]
  have hne' : order.map (b.allocated + ·) ≠ [] := mt List.map_eq_nil_iff.mp hne
  have hnodup' : (order.map (b.allocated + ·)).Nodup := hnodup.map fun a b => Nat.add_left_cancel
  have hstarts : ∀ x ∈ order.map (b.allocated + ·), Starts p (threadCalls executables)
      (newThreads b executables) x (s.threads x) := by
    intro x hx
    obtain ⟨k, hk, rfl⟩ := List.mem_map.mp hx
    refine (hof k hk).starts ?_ ⟨Nat.le_add_right _ _, Nat.add_lt_add_left (hlt k hk) _⟩
    simp [List.getD, List.getElem?_eq_getElem (hlt k hk)]
  obtain ⟨fuel, t, hrun, hmem⟩ := run_queue hp hschedule hunmarked hne' hnodup' hstarts mem
  rw [← hths, ← List.map_reverse] at hrun
  have hfold := List.foldl_ext
    (fun mem k => call (s.threads (b.allocated + k)).fn (s.threads (b.allocated + k)).args mem)
    (fun mem k => call (executables.getD k ⟨0, 0⟩).func_addr 0 mem) mem
    fun mem k (hk : k ∈ order) => by rw [(hof k hk).fn, (hof k hk).args]
  refine ⟨fuel, t, bind_ok_iff.mpr ⟨_, bind_ok_iff.mpr ⟨_, hreset, hfork⟩, hrun⟩, ?_⟩
  rw [List.foldl_map, hfold] at hmem
  exact hmem

theorem run_threads_unique {order : List ℕ} {b : Checker (List ℕ)} {fuel fuel' : ℕ}
    (h : run_threads p executables order mem fuel b = .ok (.finished t))
    (h' : run_threads p executables order mem fuel' b = .ok (.finished v)) : t = v := by
  obtain ⟨⟨threads, s⟩, hs, h⟩ := bind_ok_iff.mp h
  obtain ⟨⟨threads', s'⟩, hs', h'⟩ := bind_ok_iff.mp h'
  cases hs.symm.trans hs'
  obtain ⟨u, hu, h⟩ := bind_ok_iff.mp h
  obtain ⟨u', hu', h'⟩ := bind_ok_iff.mp h'
  cases hu.symm.trans hu'
  obtain ⟨w, hw, h⟩ := bind_ok_iff.mp h
  obtain ⟨w', hw', h'⟩ := bind_ok_iff.mp h'
  cases hw.symm.trans hw'
  have heq := (steps_of_le h (le_max_left fuel fuel')).symm.trans
    (steps_of_le h' (le_max_right fuel fuel'))
  cases heq
  rfl

theorem run_row_order {order : List ℕ} (horder : order.Perm (List.range executables.length))
    (mem : Mem) (s : SetHeap) : run_row call executables (order.getD · 0) mem s =
      .ok (direct call executables order mem, s) := by
  have hlength : order.length = executables.length := by simpa using horder.length_eq
  have hrow : ∀ j < executables.length, order.getD j 0 < executables.length := by
    intro j hj
    have hmem : order.getD j 0 ∈ order := by
      rw [List.getD, List.getElem?_eq_getElem (hlength ▸ hj)]
      exact List.getElem_mem _
    exact List.mem_range.mp (horder.mem_iff.mp hmem)
  have hmap : (List.range executables.length).map (order.getD · 0) = order := by
    refine List.ext_getElem (by simp [hlength]) fun j hj hj' => ?_
    simp [hj']
  rw [run_row_direct hrow, hmap]

/-- The orders that `find_good_hashes` runs, with the memory each of them starts in. -/
def starts (call : Word → Word → Mem → Mem) (init : Mem → Mem) (executables : List FunctionExec) :
    List (List ℕ) → Mem → List (List ℕ × Mem)
  | [], _ => []
  | order :: orders, mem => (order, init mem) ::
      starts call init executables orders (direct call executables order (init mem))

/-- Threads that run in a serial order are not reported, whatever else the record of the run is. -/
def Unreported (p : Platform) (call : Word → Word → Mem → Mem) (hash : List (BitVec 8) → Word)
    (init : Mem → Mem) (executables : List FunctionExec) (shared_memory : Ptr) (mem : Mem)
    (b : Checker (List ℕ)) (r : Ptr × Mem) (t : SetHeap) : Prop :=
  ∀ u, Unchanged t u shared_memory → Unchanged t u r.1 →
  ∀ order m, (order, m) ∈ starts call init executables (orders executables.length) mem →
  ∀ fuel v, run_threads p executables order m fuel b = .ok (.finished v) →
  ∀ (verbose ncs : ℕ) (run : Run), run.mem = v.mem → ∃ result,
    report hash verbose ncs r.1 shared_memory run u = .ok (result, u) ∧ result ≠ some .invalid

/-- Serial execution by threads and `find_good_hashes` leave the same memory, but for the stacks, and
threads that run in a serial order are not reported when no byte of a stack is hashed. -/
structure Agrees (executables : List FunctionExec) : Prop where
  memory : ∀ p scratch call (b : Checker (List ℕ)), b.equiv_runq = [] →
    Realises p (calls executables) (newThreads b executables) scratch call →
    ∀ order, order.Perm (List.range executables.length) → order ≠ [] → ∀ mem, ∃ fuel t,
      run_threads p executables order mem fuel b = .ok (.finished t) ∧
        ∀ s, ∃ mem', run_row call executables (order.getD · 0) mem s = .ok (mem', s) ∧
          Set.EqOn t.mem mem' scratchᶜ
  verdict : ∀ p scratch call (b : Checker (List ℕ)), b.equiv_runq = [] →
    Realises p (calls executables) (newThreads b executables) scratch call →
    ∀ (hash : List (BitVec 8) → Word) (init : Mem → Mem) (s : SetHeap) (shared_memory : Ptr)
      (F : Set Ptr) (members : List Word), Owns s.nodes 6 shared_memory F →
    members.Pairwise (· < ·) → (∀ a, Has s.nodes 6 shared_memory a ↔ a ∈ members) →
    (∀ a ∈ members, a ∉ scratch) →
    0 < executables.length → executables.length.factorial < 2 ^ 31 → ∀ mem,
    Ends (collect_hashes hash call init executables shared_memory mem)
      (Unreported p call hash init executables shared_memory mem b) s

section Agreement
variable {init : Mem → Mem}

theorem serial_mem_serialEnds (hnull : ∀ e ∈ executables, e.var_list = 0) {order : List ℕ} {m : Mem}
    {orders : List (List ℕ)} (h : (order, m) ∈ starts call init executables orders mem) :
    order ∈ orders ∧
      serial call executables order m ∈ serialEnds call init executables orders mem := by
  induction orders generalizing mem with
  | nil => cases h
  | cons first orders ih =>
    rw [starts, direct_eq_serial hnull] at h
    rcases List.mem_cons.mp h with heq | h
    · cases heq
      exact ⟨List.mem_cons_self, List.mem_cons_self⟩
    · obtain ⟨horder, hend⟩ := ih h
      exact ⟨List.mem_cons_of_mem _ horder, List.mem_cons_of_mem _ hend⟩

/-- A run whose end state has a known hash is not reported. -/
theorem report_known {hash : List (BitVec 8) → Word} {members : List Word} {t u : SetHeap}
    {ptr : Table → Ptr} {F : Table → Set Ptr} {ends : List Mem}
    (hr : Represents t Set.univ ptr (contents members (hashes hash members ends)) F)
    (hsorted : members.Pairwise (· < ·)) (hu : ∀ x, Unchanged t u (ptr x)) {verbose ncs : ℕ}
    {run : Run} (hrun : hash (members.map run.mem) ∈ hashes hash members ends) : ∃ result,
      report hash verbose ncs (ptr .valid_hashes) (ptr .shared_memory) run u = .ok (result, u) ∧
        result ≠ some .invalid := by
  by_cases hswitch : run.status.yielded = false ∧ run.status.ctx_switch = ncs
  · obtain ⟨result, hreport, hiff⟩ := report_lookup hr hsorted hu verbose hswitch.1 hswitch.2
    exact ⟨result, hreport, fun h => (hiff.mp h).2 hrun⟩
  · refine ⟨none, ?_, by simp⟩
    rw [report, if_neg hswitch]
    rfl

section Null
variable {b : Checker (List ℕ)} (hnull : ∀ e ∈ executables, e.var_list = 0)
  (hp : Realises p (calls executables) (newThreads b executables) scratch call) (hb : b.equiv_runq = [])

include hnull hp hb

theorem verdict_of_null {hash : List (BitVec 8) → Word} {s : SetHeap} {shared_memory : Ptr} {F : Set Ptr}
    {members : List Word} (ho : Owns s.nodes 6 shared_memory F) (hsorted : members.Pairwise (· < ·))
    (hmembers : ∀ a, Has s.nodes 6 shared_memory a ↔ a ∈ members) (hout : ∀ a ∈ members, a ∉ scratch)
    (hn : 0 < executables.length) (hfact : executables.length.factorial < 2 ^ 31) (mem : Mem) :
    Ends (collect_hashes hash call init executables shared_memory mem)
      (Unreported p call hash init executables shared_memory mem b) s := by
  rw [← threadCalls_eq hnull] at hp
  refine (collect_hashes_spec ho hsorted hmembers hn hfact hnull mem).mono ?_
  rintro r t ⟨ptr, F', rfl, hvalid, hr⟩ u hshared hvalid' order m hstart fuel v hv verbose ncs run hrun
  rw [← hvalid] at hvalid' ⊢
  obtain ⟨horder, hend⟩ := serial_mem_serialEnds hnull hstart
  have hperm := List.mem_permutations.mp ((orders_perm hn).mem_iff.mp horder)
  have hne : order ≠ [] := by
    rintro rfl
    have hlength := hperm.length_eq
    simp at hlength
    omega
  obtain ⟨fuel', v', hv', hmem⟩ := run_threads_spec hp hperm hne m hb
  cases run_threads_unique hv hv'
  refine report_known hr hsorted (fun x => ?_) ⟨_, hend, ?_⟩
  · cases x with
    | shared_memory => exact hshared
    | valid_hashes => exact hvalid'
  · rw [hrun, List.map_congr_left fun a ha => hmem (hout a ha)]

theorem memory_of_null {order : List ℕ} (horder : order.Perm (List.range executables.length))
    (hne : order ≠ []) (mem : Mem) : ∃ fuel t,
      run_threads p executables order mem fuel b = .ok (.finished t) ∧
        ∀ s, ∃ mem', run_row call executables (order.getD · 0) mem s = .ok (mem', s) ∧
          Set.EqOn t.mem mem' scratchᶜ := by
  rw [← threadCalls_eq hnull] at hp
  obtain ⟨fuel, t, hrun, hmem⟩ := run_threads_spec hp horder hne mem hb
  refine ⟨fuel, t, hrun, fun s => ⟨_, run_row_order horder mem s, ?_⟩⟩
  rw [direct_eq_serial hnull]
  exact hmem

end Null

end Agreement

section Storing

/-- Every function stores at 4096 when its argument is not NULL. -/
def store_if (_ arg : Word) (mem : Mem) : Mem :=
  if arg = 0 then mem else Function.update mem 4096 1

/-- A machine on which every function is `store_if`; it pushes a byte first. -/
def storing : Platform where
  fetch regs mem :=
    if regs 1 = 0 then
      .exec {regs REGS_SP - 1} true (Function.update regs 1 1) (Function.update mem (regs REGS_SP - 1) 7)
    else if regs 0 = 0 ∨ regs 1 = 2 then .swi (Function.update regs 0 EQUIV_EXIT)
    else .exec {4096} true (Function.update regs 1 2) (Function.update mem 4096 1)
  user_cpsr := 16
  sys_equiv_exit := 0x8000
  kmalloc_aligned k := 0x100000 + BitVec.ofNat 32 (k % 256) <<< 12

/-- The blocks of the threads. -/
def blocks : Set Addr := {a | 0x100000 ≤ a ∧ a < 0x200000}

theorem blocks_spec (k : ℕ) : storing.kmalloc_aligned k ≤ storing.kmalloc_aligned k + stack_size ∧
    storing.kmalloc_aligned k + stack_size - 1 ∈ blocks := by
  have hall : ∀ i < 256, (0x100000#32 + BitVec.ofNat 32 i <<< 12 ≤
      0x100000#32 + BitVec.ofNat 32 i <<< 12 + stack_size) ∧
      0x100000#32 ≤ 0x100000#32 + BitVec.ofNat 32 i <<< 12 + stack_size - 1 ∧
      0x100000#32 + BitVec.ofNat 32 i <<< 12 + stack_size - 1 < 0x200000#32 := by decide +kernel
  exact hall _ (Nat.mod_lt k (by decide))

theorem storing_exit {regs : Regs} (mem : Mem) (hpushed : regs 1 ≠ 0) (h : regs 0 = 0 ∨ regs 1 = 2) :
    storing.fetch regs mem = .swi (Function.update regs 0 EQUIV_EXIT) :=
  (if_neg hpushed).trans (if_pos h)

/-- Behind the push. -/
theorem storing_exits {regs : Regs} (mem : Mem) (hstage : regs 1 = 1) : ∃ regs',
    Exits storing regs mem regs' (store_if 0 (regs 0) mem) ∧ regs' REGS_SP = regs REGS_SP := by
  have hpushed : regs 1 ≠ 0 := by
    rw [hstage]
    decide
  by_cases harg : regs 0 = 0
  · rw [store_if, if_pos harg]
    exact ⟨_, .exit (storing_exit mem hpushed (.inl harg)) rfl, rfl⟩
  · have hstore : storing.fetch regs mem =
        .exec {4096} true (Function.update regs 1 2) (Function.update mem 4096 1) := by
      refine (if_neg hpushed).trans (if_neg (not_or.mpr ⟨harg, ?_⟩))
      rw [hstage]
      decide
    have hlast : storing.fetch (Function.update regs 1 2) (Function.update mem 4096 1) = .swi _ :=
      storing_exit _ (show (2 : Word) ≠ 0 by decide) (.inr rfl)
    rw [store_if, if_neg harg]
    exact ⟨_, .step hstore (.exit hlast rfl), rfl⟩

theorem storing_realises (cs : Set (Word × Word)) (ths : Set ℕ) :
    Realises storing cs ths blocks store_if where
  stack_fits x _ := (blocks_spec x).1
  runs x t hstarts mem mem₀ hmem := by
    have hsp : t.stack_end - 1 ∈ blocks := by
      rw [hstarts.stack_end]
      exact (blocks_spec x).2
    have hpush : Set.EqOn (Function.update mem (t.stack_end - 1) 7) mem₀ blocksᶜ := by
      intro a ha
      have hne : a ≠ t.stack_end - 1 := fun h => ha (h ▸ hsp)
      rw [Function.update_of_ne hne]
      exact hmem ha
    obtain ⟨regs', hexits, hregs'⟩ : ∃ regs', Exits storing (Function.update (equiv_regs_init storing t) 1 1)
        (Function.update mem (t.stack_end - 1) 7) regs' (store_if 0 t.args _) ∧ _ := storing_exits _ rfl
    refine ⟨regs', _, .step rfl hexits, hregs', fun a ha => ?_⟩
    unfold store_if
    split
    · exact hpush ha
    · by_cases h : a = 4096
      · rw [h, Function.update_self, Function.update_self]
      · rw [Function.update_of_ne h, Function.update_of_ne h]
        exact hpush ha

theorem serial_store_if (order : List ℕ) (mem : Mem) :
    serial store_if executables order mem = mem := by
  induction order with
  | nil => rfl
  | cons k order ih => exact ih

theorem store_if_stored (fn arg : Word) {mem : Mem} (h : mem 4096 = 1) :
    store_if fn arg mem 4096 = 1 := by
  unfold store_if
  split
  · exact h
  · exact Function.update_self 4096 1 mem

theorem direct_stored (order : List ℕ) {mem : Mem} (h : mem 4096 = 1) :
    direct store_if executables order mem 4096 = 1 := by
  induction order generalizing mem with
  | nil => exact h
  | cons j order ih =>
    apply ih
    apply store_if_stored
    exact h

theorem direct_store_if {k : ℕ} {e : FunctionExec} (hk : executables[k]? = some e)
    (he : e.var_list ≠ 0) {order : List ℕ} (horder : k ∈ order) (mem : Mem) :
    direct store_if executables order mem 4096 = 1 := by
  induction order generalizing mem with
  | nil => cases horder
  | cons j order ih =>
    rcases List.mem_cons.mp horder with rfl | horder
    · apply direct_stored order
      have harg : (executables.getD k ⟨0, 0⟩).var_list = e.var_list := by simp [List.getD, hk]
      change store_if _ (executables.getD k ⟨0, 0⟩).var_list mem 4096 = 1
      rw [harg, store_if, if_neg he]
      exact Function.update_self 4096 1 mem
    · exact ih horder _

/-- The byte at 4096 lies in no block. -/
theorem stored_outside : (4096 : Addr) ∈ blocksᶜ := by
  rintro ⟨hle, -⟩
  revert hle
  decide

theorem storing_run {order : List ℕ} (horder : order.Perm (List.range executables.length))
    (hne : order ≠ []) {b : Checker (List ℕ)} (hb : b.equiv_runq = []) : ∃ fuel t,
      run_threads storing executables order (fun _ => 0) fuel b = .ok (.finished t) ∧ t.mem 4096 = 0 := by
  obtain ⟨fuel, t, hrun, hmem⟩ := run_threads_spec (storing_realises _ _) horder hne (fun _ => 0) hb
  have hzero := hmem stored_outside
  rw [serial_store_if] at hzero
  exact ⟨fuel, t, hrun, hzero⟩

/-- On this machine the two references differ. -/
theorem storing_differs {k : ℕ} {e : FunctionExec} (hk : executables[k]? = some e)
    (he : e.var_list ≠ 0) : ¬Agrees executables := by
  intro h
  have hlt : k < executables.length := (List.getElem?_eq_some_iff.mp hk).1
  have horder : k ∈ List.range executables.length := List.mem_range.mpr hlt
  have hne := List.ne_nil_of_mem horder
  obtain ⟨fuel, t, hrun, hrow⟩ := h.memory storing blocks store_if Setup.writersStart rfl
    (storing_realises _ _) _ (List.Perm.refl _) hne (fun _ => 0)
  obtain ⟨fuel', t', hrun', hzero⟩ := storing_run (List.Perm.refl _) hne (b := Setup.writersStart) rfl
  rw [← run_threads_unique hrun hrun'] at hzero
  obtain ⟨mem', hrow, hmem⟩ := hrow oneSet
  have hdirect := (run_row_order (List.Perm.refl _) _ oneSet).symm.trans hrow
  simp only [Except.ok.injEq, Prod.mk.injEq, and_true] at hdirect
  have hone := direct_store_if hk he horder (fun _ => 0)
  rw [hdirect, ← hmem stored_outside, hzero] at hone
  cases hone

end Storing

/-- The threads agree with `find_good_hashes` if and only if no function has an argument. -/
theorem agrees_iff (executables : List FunctionExec) :
    Agrees executables ↔ ∀ e ∈ executables, e.var_list = 0 := by
  constructor
  · intro h e he
    obtain ⟨k, hk⟩ := List.mem_iff_getElem?.mp he
    by_contra hne
    exact storing_differs hk hne h
  · intro hnull
    constructor
    · intro p scratch call b hb hp order horder hne mem
      exact memory_of_null hnull hp hb horder hne mem
    · intro p scratch call b hb hp hash init s shared_memory F members ho hsorted hmembers hout hn hfact mem
      exact verdict_of_null hnull hp hb ho hsorted hmembers hout hn hfact mem

/-- One function with an argument: its thread leaves 0 where `find_good_hashes` leaves 1. -/
theorem agrees_argument : ¬Agrees [⟨0x8000, 0x1000⟩] ∧ ∃ fuel t,
    run_threads storing [⟨0x8000, 0x1000⟩] [0] (fun _ => 0) fuel Setup.writersStart =
      .ok (.finished t) ∧ t.mem 4096 = 0 ∧
    ∃ mem, run_row store_if [⟨0x8000, 0x1000⟩] (fun _ => 0) (fun _ => 0) oneSet = .ok (mem, oneSet) ∧
      mem 4096 = 1 := by
  have hfirst : [(⟨0x8000, 0x1000⟩ : FunctionExec)][0]? = some ⟨0x8000, 0x1000⟩ := rfl
  have hperm : [0].Perm (List.range [(⟨0x8000, 0x1000⟩ : FunctionExec)].length) := List.Perm.refl _
  obtain ⟨fuel, t, hrun, hzero⟩ := storing_run hperm (by decide) (b := Setup.writersStart) rfl
  exact ⟨storing_differs hfirst (by decide), fuel, t, hrun, hzero, _, rfl, rfl⟩

end EquivChecker.SerialReference
