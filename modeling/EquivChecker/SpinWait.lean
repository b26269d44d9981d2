import EquivChecker.SerialReference

/-!
# A thread that waits for another one

A thread that reads a shared byte until another thread has stored it makes as many counted
accesses as its schedule asks for. Every run that the main loop makes then ends, since the
switch comes when the count is full, and every count is followed by a larger one.
-/

namespace EquivChecker

open Checker SerialReference

theorem Checker.steps_of_finished {p : Platform} {s t : Checker (List ℕ)} {n : ℕ}
    (h : steps p n s = .ok (.finished t)) (fuel : ℕ) :
    steps p fuel s = .ok (.finished t) ∨ ∃ v, steps p fuel s = .ok (.running v) := by
  induction fuel generalizing n s with
  | zero => exact .inr ⟨s, rfl⟩
  | succ fuel ih =>
    cases n with
    | zero => cases h
    | succ n =>
      obtain ⟨r, hr, h⟩ := bind_ok_iff.mp h
      cases r with
      | running v =>
        rw [steps, hr]
        exact ih h
      | finished v =>
        cases h
        exact .inl (bind_ok_iff.mpr ⟨_, hr, rfl⟩)

namespace Interleaver.Setup
variable {u : Setup} {b s t v : Checker (List ℕ)} {σ : Schedule} {d k : ℕ}
  {marked : Bool}

/-- Every `equiv_run` that the main loop can make ends. -/
def LoopRunsEnd (u : Setup) (b : Checker (List ℕ)) : Prop :=
  ∀ tids instr_nums, Order u.num_funcs (u.ncs + 1) tids → tids_valid tids →
    Odometer.Vec u.ncs instr_nums →
      ∃ fuel t, u.execute fuel (u.schedule tids instr_nums) b = .ok (.finished t)

/-- The loop goes on after a run that the next schedule follows. -/
theorem loop_goes_on {tids tids' c c' : List ℕ} {n fuel : ℕ} {runs : List Run}
    (hready : Ready u.threads b s) (hrun : u.Switches s (u.schedule tids c) n)
    (hnext : u.next_schedule n tids c = .ok (some (tids', c')))
    (hrest : ∀ s runs, Ready u.threads b s → ∃ z, u.loop fuel ⟨tids', c', s, runs⟩ = .ok (.running z)) :
    ∃ z, u.loop (fuel + 1) ⟨tids, c, s, runs⟩ = .ok (.running z) := by
  obtain ⟨N, t, ht, rfl⟩ := hrun
  obtain ⟨v, hv, hsteps⟩ := execute_iff.mp ht
  rcases steps_of_finished hsteps (fuel + 1) with hdone | ⟨w, hw⟩
  · have hexec : u.execute (fuel + 1) (u.schedule tids c) s = .ok (.finished t) :=
      execute_iff.mpr ⟨v, hv, hdone⟩
    rw [loop_succ hexec, hnext]
    exact hrest _ _ (ready_leave hready ht)
  · have hexec : u.execute (fuel + 1) (u.schedule tids c) s = .ok (.running w) :=
      execute_iff.mpr ⟨v, hv, hw⟩
    refine ⟨⟨tids, c, w, runs⟩, ?_⟩
    rw [loop]
    dsimp only
    rw [hexec]
    rfl

/-- The first thread reads byte 512 until it is not 0, the second thread stores 1 there. -/
def waiting : Setup where
  platform := {
    fetch := fun regs mem =>
      if regs REGS_PC = 0x9000#32 then
        .exec {512#32} false (Function.update (Function.update regs 1 ((mem 512#32).setWidth 32))
          REGS_PC 0x9004#32) mem
      else if regs REGS_PC = 0x9004#32 then
        .exec ∅ false
          (Function.update regs REGS_PC (if regs 1 = 0#32 then 0x9000#32 else 0x9008#32)) mem
      else if regs REGS_PC = 0x9100#32 then
        .exec {512#32} true (Function.update regs REGS_PC 0x9008#32) (Function.update mem 512#32 1#8)
      else .swi (Function.update regs 0 EQUIV_EXIT)
    user_cpsr := 16
    sys_equiv_exit := 0x8000
    kmalloc_aligned := fun k => 0x100000 + 0x1000 * BitVec.ofNat 32 k }
  init mem := Function.update mem 512#32 0#8
  shared_memory := {512#32}
  threads := [0, 1]
  ncs := 1
  report := false

def waitingStart : Checker (List ℕ) :=
  { writersStart with
    threads := fun k =>
      { writersStart.threads k with fn := if k = 0 then 0x9000 else 0x9100 } }

section Fetch
variable {regs : Regs} (mem : Mem)

theorem fetch_read (hpc : regs REGS_PC = 0x9000#32) : waiting.platform.fetch regs mem =
    .exec {512#32} false (Function.update (Function.update regs 1 ((mem 512#32).setWidth 32))
      REGS_PC 0x9004#32) mem :=
  if_pos hpc

theorem fetch_branch (hpc : regs REGS_PC = 0x9004#32) : waiting.platform.fetch regs mem = .exec ∅ false
    (Function.update regs REGS_PC (if regs 1 = 0#32 then 0x9000#32 else 0x9008#32)) mem := by
  simp [waiting, hpc]

theorem fetch_exit (hpc : regs REGS_PC = 0x9008#32) :
    waiting.platform.fetch regs mem = .swi (Function.update regs 0 EQUIV_EXIT) := by
  simp [waiting, hpc]

end Fetch

theorem waiting_readsOnly : waiting.platform.ReadsOnly {512#32} := by
  intro regs mem mem' hmem
  have h512 := hmem 512#32 rfl
  change Instr.Agree _ (if regs REGS_PC = 0x9000#32 then _ else _) (if regs REGS_PC = 0x9000#32 then _ else _)
  rw [h512]
  split
  · exact .exec hmem
  · split
    · exact .exec hmem
    · split
      · refine .exec fun a ha => ?_
        rw [Set.mem_singleton_iff.mp ha, Function.update_self, Function.update_self]
      · exact .swi

theorem waiting_restores : Restores waiting.init {512#32} := by
  intro mem mem' a ha
  rw [Set.mem_singleton_iff.mp ha]
  change Function.update mem' 512#32 0#8 512#32 = Function.update mem 512#32 0#8 512#32
  rw [Function.update_self, Function.update_self]

/-- The first thread waits under the count `d`; `k` of its reads are counted, and one more is
marked when it has read and not yet branched. -/
structure Waits (d k : ℕ) (marked : Bool) (s : Checker (List ℕ)) : Prop where
  zero : s.regs 1 = 0#32
  mem : s.mem 512#32 = 0#8
  current : s.cur_thread = some 0
  queue : s.equiv_runq = [1]
  schedule : s.schedule = some (waiting.schedule [1, 2] [d])
  shared_memory : s.shared_memory = some {512#32}
  status : s.ctx_switch_status = ⟨0, k, marked, false⟩
  enabled : s.rw_tracker_enabled = true
  touch_handler : s.touch_handler = true
  sp : s.regs REGS_SP = (s.threads 0).stack_end
  stack : (s.threads 0).stack_start ≤ (s.threads 0).stack_end
  other : s.threads 1 = refreshed waiting.platform (waitingStart.threads 1)

theorem waits_launched (d : ℕ) :
    ∃ v, waiting.Launched (waiting.schedule [1, 2] [d]) waitingStart v ∧ Waits d 0 false v ∧
      v.regs REGS_PC = 0x9000#32 ∧ v.mismatch = 0#32 := by
  have hstack : (0x100000#32 : Word) ≤ 0x100000#32 + stack_size := by decide
  exact ⟨_, ⟨by decide, 1, 0, [1], rfl, rfl, rfl⟩,
    ⟨rfl, rfl, rfl, rfl, rfl, rfl, rfl, rfl, rfl, rfl, hstack, rfl⟩, rfl, rfl⟩

theorem prefetch_handled {v : Checker (List ℕ)} (hmismatch : s.mismatch ≠ s.regs REGS_PC)
    (h : Handled s v) : Checker.prefetch s = .ok { v with mismatch := v.regs REGS_PC } := by
  rw [Checker.prefetch, if_neg hmismatch.symm]
  exact bind_ok_iff.mpr ⟨v, equiv_hash_handler_iff.mpr h, rfl⟩

theorem Waits.saved (h : Waits d k marked s) : Waits d k marked (Checker.saved 0 s) := by
  rw [saved_eq]
  exact { h with
    sp := by simp [h.sp]
    stack := by simp [h.stack]
    other := by simp [h.other] }

theorem saved_armed (henabled : s.rw_tracker_enabled = true) (th : ℕ) :
    (Checker.saved th s).armed = true ∧ (Checker.saved th s).regs = s.regs := by
  rw [saved_eq, henabled]
  exact ⟨rfl, rfl⟩

/-- The prefetch abort behind a marked read counts it when the count is not full. -/
theorem Waits.prefetch (h : Waits d k marked s) (hmismatch : s.mismatch ≠ s.regs REGS_PC)
    (hcount : marked = true → k + 1 < d) :
    ∃ v, Checker.prefetch s = .ok v ∧ Waits d (k + marked.toNat) false v ∧ v.regs = s.regs ∧
      v.armed = true ∧ v.mismatch = s.regs REGS_PC := by
  obtain ⟨harmed, hregs⟩ := saved_armed h.enabled 0
  cases marked with
  | false =>
    have hdo : s.ctx_switch_status.do_instr_count = false := by rw [h.status]
    refine ⟨_, prefetch_handled hmismatch (.unmarked h.current hdo), { h.saved with }, ?_⟩
    exact ⟨hregs, harmed, by rw [hregs]⟩
  | true =>
    have hdo : s.ctx_switch_status.do_instr_count = true := by rw [h.status]
    have hread : (waiting.schedule [1, 2] [d]).instr_counts[s.ctx_switch_status.ctx_switch]? =
        some d := by
      rw [h.status]
      rfl
    have hlt : s.ctx_switch_status.instr_count + 1 < d := by
      rw [h.status]
      exact hcount rfl
    refine ⟨_, prefetch_handled hmismatch (.counted h.current hdo h.schedule hread hlt),
      { h.saved with status := ?_ }, ?_⟩
    · simp [counted, h.status]
    · exact ⟨hregs, harmed, by rw [← hregs]; rfl⟩

/-- The read of the shared byte is marked. -/
theorem Waits.read (h : Waits d k false s) (hpc : s.regs REGS_PC = 0x9000#32)
    (hmismatch : s.mismatch ≠ 0x9000#32) :
    ∃ v, step waiting.platform s = .ok (.running v) ∧ Waits d k true v ∧
      v.regs REGS_PC = 0x9004#32 ∧ v.mismatch = 0x9000#32 := by
  obtain ⟨v, hv, hw, hregs, harmed, hmis⟩ := h.prefetch (hpc ▸ hmismatch) (fun h => by cases h)
  rw [← hregs] at hpc hmis
  have hstatus : v.ctx_switch_status.ctx_switch < 1 := by
    rw [hw.status]
    exact Nat.one_pos
  obtain ⟨pcs, hmark⟩ := ctx_switch_handler_eq {512#32} (v.regs REGS_PC) hw.schedule hstatus
    hw.shared_memory
  have hshared : ({512#32} : Finset Addr) ∩ {512#32} ≠ ∅ := by decide
  rw [if_pos hshared] at hmark
  have haccess : Checker.access {512#32} false v = .ok (rw_tracker_disarm { marked v pcs with
      current_tracker := (marked v pcs).current_tracker.record {512#32} false }) := by
    rw [Checker.access, if_pos ⟨harmed, by decide⟩]
    refine bind_ok_iff.mpr ⟨_, ?_, rfl⟩
    rw [memory_touch_handler, if_pos hw.touch_handler, hmark]
  have hfetch : waiting.platform.fetch v.regs v.mem = .exec {512#32} false
      (Function.update (Function.update v.regs 1 0#32) REGS_PC 0x9004#32) v.mem := by
    rw [fetch_read v.mem hpc, hw.mem]
    rfl
  refine ⟨_, step_exec hv hfetch haccess, { hw with zero := rfl, status := ?_, sp := ?_ }, rfl, ?_⟩
  · simp [marked, rw_tracker_disarm, hw.status]
  · exact hw.sp
  · exact hmis.trans hpc

/-- The branch back to the read. -/
theorem Waits.branch (h : Waits d k true s) (hpc : s.regs REGS_PC = 0x9004#32)
    (hmismatch : s.mismatch ≠ 0x9004#32) (hcount : k + 1 < d) :
    ∃ v, step waiting.platform s = .ok (.running v) ∧ Waits d (k + 1) false v ∧
      v.regs REGS_PC = 0x9000#32 ∧ v.mismatch = 0x9004#32 := by
  obtain ⟨v, hv, hw, hregs, -, hmis⟩ := h.prefetch (hpc ▸ hmismatch) (fun _ => hcount)
  rw [← hregs] at hpc hmis
  have hfetch : waiting.platform.fetch v.regs v.mem =
      .exec ∅ false (Function.update v.regs REGS_PC 0x9000#32) v.mem := by
    rw [fetch_branch v.mem hpc, hw.zero, if_pos rfl]
  have haccess : Checker.access ∅ false v = .ok v := by simp [Checker.access]
  exact ⟨_, step_exec hv hfetch haccess, { hw with zero := hw.zero, sp := hw.sp }, rfl, hmis.trans hpc⟩

/-- No access is marked after the last switch. -/
theorem access_last (touched : Finset Addr) (w : Bool) (hσ : s.schedule = some σ)
    (hlast : σ.n_ctx_switches ≤ s.ctx_switch_status.ctx_switch) :
    ∃ tracker armed, Checker.access touched w s =
      .ok { s with current_tracker := tracker, armed := armed } := by
  unfold Checker.access
  split
  · refine ⟨s.current_tracker.record touched w, false, bind_ok_iff.mpr ⟨s, ?_, rfl⟩⟩
    unfold memory_touch_handler
    split
    · exact ctx_switch_handler_done hσ hlast
    · rfl
  · exact ⟨_, _, rfl⟩

/-- The second thread has stored, and the first one is queued behind its read. -/
structure Stored (s : Checker (List ℕ)) : Prop where
  pc : s.regs REGS_PC = 0x9008#32
  mismatch : s.mismatch ≠ 0x9008#32
  mem : s.mem 512#32 = 1#8
  current : s.cur_thread = some 1
  queue : s.equiv_runq = [0]
  ctx_switch : s.ctx_switch_status.ctx_switch = 1
  unmarked : s.ctx_switch_status.do_instr_count = false
  sp : s.regs REGS_SP = (s.threads 1).stack_end
  stack : (s.threads 1).stack_start ≤ (s.threads 1).stack_end
  behind : (s.threads 0).regs REGS_PC = 0x9004#32 ∧ (s.threads 0).regs 1 = 0#32
  behind_sp : (s.threads 0).regs REGS_SP = (s.threads 0).stack_end
  behind_stack : (s.threads 0).stack_start ≤ (s.threads 0).stack_end

/-- When the count is full the second thread is switched to, and stores. -/
theorem Waits.switch (h : Waits d k true s) (hpc : s.regs REGS_PC = 0x9004#32)
    (hmismatch : s.mismatch ≠ 0x9004#32) (hcount : d ≤ k + 1) :
    ∃ v, step waiting.platform s = .ok (.running v) ∧ Stored v := by
  have hdo : s.ctx_switch_status.do_instr_count = true := by rw [h.status]
  have hread : (waiting.schedule [1, 2] [d]).instr_counts[s.ctx_switch_status.ctx_switch]? =
      some d := by
    rw [h.status]
    rfl
  have hle : d ≤ s.ctx_switch_status.instr_count + 1 := by rw [h.status]; exact hcount
  have htid : (waiting.schedule [1, 2] [d]).tids[s.ctx_switch_status.ctx_switch + 1]? = some 2 := by
    rw [h.status]
    rfl
  have hfirst : (counted_out 0 s).threads 0 = { s.threads 0 with regs := s.regs } := by
    simp [counted_out, saved_eq]
  have hother : (counted_out 0 s).threads 1 = refreshed waiting.platform (waitingStart.threads 1) :=
    h.saved.other
  have hnext : retrieve_tid_from_queue 2 (counted_out 0 s) =
      .ok (1, { counted_out 0 s with equiv_runq := [] }) := by
    have hqueue : (counted_out 0 s).equiv_runq = [1] := h.saved.queue
    simp only [retrieve_tid_from_queue, hqueue, RunQueue.list_pop, List.head?_cons, List.tail_cons]
    unfold retrieveLoop
    rw [hother]
    rfl
  have hv := prefetch_handled (hpc ▸ hmismatch)
    (.switched h.current hdo h.schedule hread hle htid hnext)
  have hfull : (counted_out 0 s).ctx_switch_status = ⟨1, 0, false, false⟩ := by
    simp [counted_out, h.status]
  have hschedule : (counted_out 0 s).schedule = some (waiting.schedule [1, 2] [d]) := h.saved.schedule
  generalize counted_out 0 s = w at hfirst hother hfull hschedule hv
  have hregs : (w.threads 1).regs = equiv_regs_init waiting.platform (waitingStart.threads 1) := by
    rw [hother]
    rfl
  have hfetch : waiting.platform.fetch (w.threads 1).regs w.mem = .exec {512#32} true
      (Function.update (w.threads 1).regs REGS_PC 0x9008#32) (Function.update w.mem 512#32 1#8) := by
    rw [hregs]
    rfl
  have hlast : (waiting.schedule [1, 2] [d]).n_ctx_switches ≤ w.ctx_switch_status.ctx_switch := by
    rw [hfull]
    exact le_refl 1
  obtain ⟨tracker, armed, haccess⟩ := access_last (s := { w with
    equiv_runq := [0], cur_thread := some 1, mismatch := (w.threads 1).regs REGS_PC
    regs := (w.threads 1).regs }) {512#32} true hschedule hlast
  have hpc' : (w.threads 1).regs REGS_PC = 0x9100#32 := by rw [hregs]; rfl
  have hstack : (waitingStart.threads 1).stack_start ≤ (waitingStart.threads 1).stack_end := by decide
  refine ⟨_, step_exec hv hfetch haccess, ?_⟩
  exact {
    pc := rfl
    mismatch := by simp [hpc']
    mem := rfl
    current := rfl
    queue := rfl
    ctx_switch := by rw [hfull]
    unmarked := by rw [hfull]
    sp := by simp [REGS_SP, REGS_PC, hother]; rfl
    stack := by rw [hother]; exact hstack
    behind := by simp [hfirst, hpc, h.zero]
    behind_sp := by simp [hfirst, h.sp]
    behind_stack := by simp [hfirst, h.stack] }

/-- Behind a read of 0 the first thread reads once more and exits when the byte is stored. -/
theorem exits_stored {regs : Regs} {mem : Mem} (hpc : regs REGS_PC = 0x9004#32)
    (hzero : regs 1 = 0#32) (hmem : mem 512#32 = 1#8) :
    ∃ regs', Exits waiting.platform regs mem regs' mem ∧ regs' REGS_SP = regs REGS_SP := by
  have hback := fetch_branch mem hpc
  rw [if_pos hzero] at hback
  have hread : waiting.platform.fetch (Function.update regs REGS_PC 0x9000#32) mem = .exec _ _ _ _ :=
    fetch_read mem rfl
  rw [hmem] at hread
  exact ⟨_, .step hback (.step hread (.step (fetch_branch mem rfl) (.exit (fetch_exit mem rfl) rfl))), rfl⟩

/-- The second thread exits, and the first one goes on without a schedule. -/
theorem Stored.exit (h : Stored s) : ∃ v, step waiting.platform s = .ok (.running v) ∧
    Running v 0 [] ∧ v.regs = (s.threads 0).regs ∧ v.mem = s.mem ∧
      (v.threads 0).stack_start = (s.threads 0).stack_start ∧
      (v.threads 0).stack_end = (s.threads 0).stack_end := by
  have hv := prefetch_handled (h.pc ▸ h.mismatch) (.unmarked h.current h.unmarked)
  rw [saved_eq] at hv
  refine ⟨_, step_swi hv (fetch_exit s.mem h.pc) (.exit_next h.current ?_ rfl h.queue),
    ⟨rfl, h.unmarked, rfl, rfl⟩, ?_, rfl, ?_, ?_⟩
  · exact check_sp_exit (by simpa [REGS_SP] using h.sp) (by simp [h.stack])
  · simp [mismatch_run, save, setThread]
  · simp [mismatch_run, save, setThread]
  · simp [mismatch_run, save, setThread]

/-- The first thread reads the byte once more and exits. -/
theorem Stored.ends (h : Stored s) : ∃ fuel t, steps waiting.platform fuel s = .ok (.finished t) := by
  obtain ⟨w, hw, hrunning, hregs, hmem, hstart, hend⟩ := h.exit
  obtain ⟨regs', hexits, hregs'⟩ := exits_stored h.behind.1 h.behind.2 h.mem
  obtain ⟨fuel, v, t, hsteps, ht, hrun, hfetch, hexit, -, hsame⟩ := hexits.steps hrunning hregs hmem
  obtain ⟨hstart', hend'⟩ := hsame.stack 0
  obtain ⟨x, hx, -⟩ := hrun.exit_last ht hfetch hexit
    (by rw [hregs', hend', hend]; exact h.behind_sp)
    (by rw [hstart', hstart, hend', hend]; exact h.behind_stack)
  refine ⟨1 + (fuel + 1), x, ?_⟩
  have hone : steps waiting.platform 1 s = .ok (.running w) := bind_ok_iff.mpr ⟨_, hw, rfl⟩
  rw [steps_running hone, steps_running hsteps 1]
  exact bind_ok_iff.mpr ⟨_, hx, rfl⟩

/-- The second thread gets to store when the first one has read `d` times. -/
theorem Waits.stores {d k : ℕ} {s : Checker (List ℕ)} (h : Waits d k false s) (hpc : s.regs REGS_PC = 0x9000#32)
    (hmismatch : s.mismatch ≠ 0x9000#32) :
    ∃ fuel v, steps waiting.platform fuel s = .ok (.running v) ∧ Stored v := by
  obtain ⟨v, hv, hread, hvpc, hvmis⟩ := h.read hpc hmismatch
  have hvmis' : v.mismatch ≠ 0x9004#32 := by
    rw [hvmis]
    decide
  rcases Nat.lt_or_ge (k + 1) d with hlt | hle
  · obtain ⟨w, hw, hnext, hwpc, hwmis⟩ := hread.branch hvpc hvmis' hlt
    have hwmis' : w.mismatch ≠ 0x9000#32 := by
      rw [hwmis]
      decide
    obtain ⟨fuel, x, hx, hstored⟩ := hnext.stores hwpc hwmis'
    exact ⟨fuel + 2, x, bind_ok_iff.mpr ⟨_, hv, bind_ok_iff.mpr ⟨_, hw, hx⟩⟩, hstored⟩
  · obtain ⟨w, hw, hstored⟩ := hread.switch hvpc hvmis' hle
    exact ⟨2, w, bind_ok_iff.mpr ⟨_, hv, bind_ok_iff.mpr ⟨_, hw, rfl⟩⟩, hstored⟩
termination_by d - k

/-- When the waiting thread starts, the switch is made under every count. -/
theorem waiting_switches (d : ℕ) : waiting.Switches waitingStart (waiting.schedule [1, 2] [d]) 1 := by
  obtain ⟨v, hv, hwaits, hpc, hmis⟩ := waits_launched d
  have hmis' : v.mismatch ≠ 0x9000#32 := by
    rw [hmis]
    decide
  obtain ⟨fuel, w, hw, hstored⟩ := hwaits.stores hpc hmis'
  obtain ⟨fuel', t, ht⟩ := hstored.ends
  have hrun : waiting.execute (fuel + fuel') (waiting.schedule [1, 2] [d]) waitingStart =
      .ok (.finished t) := execute_iff.mpr ⟨v, hv, (steps_running hw fuel').trans ht⟩
  have hle := execute_le hrun
  have hge := steps_le ht
  rw [hstored.ctx_switch] at hge
  exact ⟨_, t, hrun, Nat.le_antisymm hle hge⟩

/-- When the storing thread starts, it does not make a second shared access. -/
theorem waiting_stores : waiting.Switches waitingStart (waiting.schedule [2, 1] [1]) 1 ∧
    waiting.Switches waitingStart (waiting.schedule [2, 1] [2]) 0 := by
  obtain ⟨t, ht, hctx⟩ := exists_of_endsWith (n := 1)
    (r := waiting.execute 12 (waiting.schedule [2, 1] [1]) waitingStart) (by decide +kernel)
  obtain ⟨t', ht', hctx'⟩ := exists_of_endsWith (n := 0)
    (r := waiting.execute 12 (waiting.schedule [2, 1] [2]) waitingStart) (by decide +kernel)
  exact ⟨⟨12, t, ht, hctx⟩, 12, t', ht', hctx'⟩

theorem waiting_ready : Ready waiting.threads waitingStart waitingStart := ready_self rfl rfl

theorem waiting_loopRunsEnd : waiting.LoopRunsEnd waitingStart := by
  intro tids c hord hvalid hc
  have hncs : waiting.ncs = 1 := rfl
  obtain ⟨d, rfl⟩ := List.length_eq_one_iff.mp (hc.length.trans hncs)
  have hpos : 0 < d := hc.pos d (by simp)
  obtain ⟨⟨fuel, t, ht, -⟩, fuel', t', ht', hctx⟩ := waiting_stores
  rcases valid_pairs hord hvalid with rfl | rfl
  · obtain ⟨fuel, t, ht, -⟩ := waiting_switches d
    exact ⟨fuel, t, ht⟩
  · rcases Nat.lt_or_ge 1 d with hlt | hle
    · have hfollows := follows_count (u := waiting) [2, 1] Nat.one_pos (show 2 ≤ d from hlt)
      obtain ⟨v, hv, -⟩ := execute_follows waiting_readsOnly waiting_restores waiting_ready waiting_ready
        hfollows ht' (by omega)
      exact ⟨fuel', v, hv⟩
    · obtain rfl : d = 1 := by omega
      exact ⟨fuel, t, ht⟩

/-- Every count is followed by a larger one. -/
theorem waiting_loop {fuel d : ℕ} {runs : List Run} (hd : 0 < d)
    (hs : Ready waiting.threads waitingStart s) :
    ∃ z, waiting.loop fuel ⟨[1, 2], [d], s, runs⟩ = .ok (.running z) := by
  induction fuel generalizing d s runs with
  | zero => exact ⟨_, rfl⟩
  | succ fuel ih =>
    have hc : Odometer.Vec waiting.ncs [d] := ⟨rfl, by simpa using hd⟩
    have hrun := (waiting_switches d).ready waiting_readsOnly waiting_restores waiting_ready hs hc
    exact loop_goes_on hs hrun rfl fun t runs ht => ih (Nat.succ_pos d) ht

/-- Every run that the main loop can make ends, and the loop itself does not. -/
theorem waiting_not_exhaustive :
    2 ≤ waiting.num_funcs ∧ 1 ≤ waiting.ncs ∧ waiting.platform.ReadsOnly {512#32} ∧
      Restores waiting.init {512#32} ∧ waitingStart.equiv_runq = [] ∧ waitingStart.armed = false ∧
      waiting.LoopRunsEnd waitingStart ∧
      ∃ x, waiting.start waitingStart = .ok x ∧ ∀ fuel, ∃ z, waiting.loop fuel x = .ok (.running z) := by
  refine ⟨by decide, by decide, waiting_readsOnly, waiting_restores, rfl, rfl, waiting_loopRunsEnd,
    ⟨[2, 1], [1], waitingStart, []⟩, rfl, fun fuel => ?_⟩
  obtain ⟨hone, htwo⟩ := waiting_stores
  have hc : ∀ d, 0 < d → Odometer.Vec waiting.ncs [d] := fun d hd => ⟨rfl, by simpa using hd⟩
  -- the orders in which the storing thread starts take two runs
  cases fuel with
  | zero => exact ⟨_, rfl⟩
  | succ fuel =>
    refine loop_goes_on waiting_ready hone rfl fun s runs hs => ?_
    cases fuel with
    | zero => exact ⟨_, rfl⟩
    | succ fuel =>
      have hrun := htwo.ready waiting_readsOnly waiting_restores waiting_ready hs (hc 2 (by decide))
      exact loop_goes_on hs hrun rfl fun s runs hs => waiting_loop Nat.one_pos hs

end Interleaver.Setup

end EquivChecker
