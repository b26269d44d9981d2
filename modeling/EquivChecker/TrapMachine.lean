import EquivChecker.DataFaults
import EquivChecker.DebugRegisters
import EquivChecker.StepEffect

/-!
# The machine that raises the traps

Threads trap because of what is in the debug registers, the page table and the domain access
control register. A machine that takes one exception or retires one instruction at a time runs
as the checker's threads do, with `armed` and `mismatch` read off these registers.
-/

namespace EquivChecker.TrapMachine

open Checker MiniStep KernelMap PageTable

/-- The statics, and the registers that make threads trap. Of `checker`, the fields `armed` and
`mismatch` are not used. -/
structure Machine where
  checker : Checker (List ℕ)
  debug : Debug
  mmu : Mmu

/-- What the registers say. -/
def Machine.view (m : Machine) : Checker (List ℕ) :=
  { m.checker with
    armed := domain_access m.mmu.domain_access_ctrl kern_dom.toNat = 0b01, mismatch := m.debug.bvr0 }

section Code
variable (lib : BitSetters)

/-- `mismatch_fault`. The handler arms the tracker, and the last thing before threads resume is a
mismatch on the pc, also when the handler switches to another thread itself. -/
def mismatch_fault (m : Machine) : Except Fault Machine := do
  let x := DataFaults.rw_tracker_arm lib ⟨m.checker.rw_tracker_enabled, m.mmu⟩
  let s ← equiv_hash_handler m.view
  let (_, debug) ← mismatch_pc_set lib (s.regs REGS_PC) m.debug
  .ok ⟨s, debug, x.mmu⟩

def rw_tracker_data_abort_handler (touched : Finset Addr) (dfsr : Word) (m : Machine) :
    Except Fault Machine := do
  let w ← DataFaults.fault_write lib dfsr
  let s ← Checker.rw_tracker_data_abort_handler touched (w ≠ 0) m.view
  let x := DataFaults.rw_tracker_disarm lib ⟨m.checker.rw_tracker_enabled, m.mmu⟩
  .ok ⟨s, m.debug, x.mmu⟩

/-- Threads are resumed by `mismatch_run`. -/
def equiv_syscall_handler (regs : Regs) (m : Machine) : Except Fault (Progress Machine) := do
  match ← Checker.equiv_syscall_handler { m.view with regs } with
  | .running s =>
    let (_, debug) ← mismatch_pc_set lib (s.regs REGS_PC) m.debug
    .ok (.running ⟨s, debug, m.mmu⟩)
  | .finished s => .ok (.finished ⟨s, m.debug, m.mmu⟩)

end Code

/-- One exception, or one instruction that retires. The breakpoint comes first; any byte of an
access may be the one that faults. -/
inductive Micro (lib : BitSetters) (p : Platform) (m : Machine) : Except Fault (Progress Machine) → Prop where
  | prefetch_abort (hfires : fires m.debug (m.checker.regs REGS_PC) = true) :
      Micro lib p m ((mismatch_fault lib m).map .running)
  | data_abort {touched w regs mem a dfsr} (hquiet : fires m.debug (m.checker.regs REGS_PC) = false)
      (hfetch : p.fetch m.checker.regs m.checker.mem = .exec touched w regs mem) (ha : a ∈ touched)
      (hfault : DataFaults.access m.mmu false w a = .faults dfsr) :
      Micro lib p m ((rw_tracker_data_abort_handler lib touched dfsr m).map .running)
  | exec {touched w regs mem} (hquiet : fires m.debug (m.checker.regs REGS_PC) = false)
      (hfetch : p.fetch m.checker.regs m.checker.mem = .exec touched w regs mem)
      (hreach : ∀ a ∈ touched, DataFaults.access m.mmu false w a = .reaches a) :
      Micro lib p m (.ok (.running { m with checker := { m.checker with regs, mem } }))
  | swi {regs} (hquiet : fires m.debug (m.checker.regs REGS_PC) = false)
      (hfetch : p.fetch m.checker.regs m.checker.mem = .swi regs) :
      Micro lib p m (equiv_syscall_handler lib regs m)

/-- Some exceptions and instructions, one after another. -/
inductive Micros (lib : BitSetters) (p : Platform) : ℕ → Machine → Except Fault (Progress Machine) → Prop where
  | none (m : Machine) : Micros lib p 0 m (.ok (.running m))
  | stop {m r} (h : Micro lib p m r) (hstop : ∀ m', r ≠ .ok (.running m')) : Micros lib p 1 m r
  | step {m m' r k} (h : Micro lib p m (.ok (.running m'))) (hrest : Micros lib p k m' r) :
      Micros lib p (k + 1) m r

/-- The instructions are words, and the bytes whose accesses trap are those of the kernel's domain. -/
structure Suits (p : Platform) (pm : Procmap) : Prop where
  exec : ∀ regs mem touched w regs' mem', aligned (regs REGS_PC) 4 →
    p.fetch regs mem = .exec touched w regs' mem' → aligned (regs' REGS_PC) 4
  swi : ∀ regs mem regs', aligned (regs REGS_PC) 4 → p.fetch regs mem = .swi regs' → aligned (regs' REGS_PC) 4
  kernel : ∀ regs mem touched w regs' mem', p.fetch regs mem = .exec touched w regs' mem' →
    ∀ a ∈ touched, ∃ e, DataFaults.Entry pm a e ∧ e.dom = kern_dom

/-- Threads resume at words. -/
structure Words (s : Checker (List ℕ)) : Prop where
  pc : aligned (s.regs REGS_PC) 4
  mismatch : aligned s.mismatch 4
  threads : ∀ th, aligned ((s.threads th).regs REGS_PC) 4

/-- The registers are those of a checker that runs; `mmu` is the unit after the kernel is mapped. -/
structure Ready (mmu : Mmu) (m : Machine) : Prop where
  debug : Agrees m.debug (some m.debug.bvr0)
  tracking : DataFaults.Agrees mmu ⟨m.checker.rw_tracker_enabled, m.mmu⟩
    ⟨m.checker.rw_tracker_enabled, m.view.armed⟩
  words : Words m.view

variable {lib : BitSetters} {p : Platform} {pm : Procmap} {mmu : Mmu} {m m' : Machine}
  {s t : Checker (List ℕ)} {r : Except Fault (Progress Machine)} {x : DataFaults.Tracking}

theorem aligned_four {a b : Word} (ha : aligned a 4) (hb : aligned b 4) : a >>> 2 ≠ b >>> 2 ↔ a ≠ b := by
  rw [aligned] at ha hb
  refine not_congr ⟨fun h => ?_, fun h => congrArg (fun w : Word => w >>> 2) h⟩
  have hshift := congrArg BitVec.toNat h
  rw [BitVec.toNat_ushiftRight, BitVec.toNat_ushiftRight, Nat.shiftRight_eq_div_pow,
    Nat.shiftRight_eq_div_pow] at hshift
  exact BitVec.eq_of_toNat_eq (by omega)

theorem Ready.fires_iff (h : Ready mmu m) :
    fires m.debug (m.checker.regs REGS_PC) = true ↔ m.view.regs REGS_PC ≠ m.view.mismatch := by
  rw [h.debug.fires_iff]
  constructor
  · rintro ⟨q, hq, hne⟩
    cases hq
    exact (aligned_four h.words.pc h.words.mismatch).mp hne
  · exact fun hne => ⟨_, rfl, (aligned_four h.words.pc h.words.mismatch).mpr hne⟩

theorem Words.saved (h : Words s) (th : ℕ) : Words (saved th s) := by
  rw [saved_eq]
  refine ⟨h.pc, h.mismatch, fun x => ?_⟩
  by_cases hx : x = th
  · subst hx
    simpa using h.pc
  · simpa [hx] using h.threads x

theorem Words.handled (h : Words s) (ht : Handled s t) : Words t := by
  cases ht with
  | @unmarked th _ _ => exact h.saved th
  | @counted th _ _ _ _ _ _ _ =>
    have hw := h.saved th
    exact ⟨hw.pc, hw.mismatch, hw.threads⟩
  | @switched th _ _ _ next _ _ _ _ _ _ _ _ =>
    have hw := h.saved th
    exact ⟨hw.threads next, hw.threads next, hw.threads⟩

theorem Words.trapped (h : Words s) {r : Progress (Checker (List ℕ))} (hr : Trapped s r) : Words r.state := by
  have hsave : ∀ th, Words (save th s) := fun th => by
    refine ⟨h.pc, h.mismatch, fun x => ?_⟩
    by_cases hx : x = th
    · subst hx
      simpa [save, setThread] using h.pc
    · simpa [save, setThread, hx] using h.threads x
  cases hr with
  | @putc_back th _ _ _ _ _ => exact ⟨(hsave th).threads th, (hsave th).threads th, (hsave th).threads⟩
  | @putc_next th next _ _ _ _ _ _ => exact ⟨(hsave th).threads next, (hsave th).threads next, (hsave th).threads⟩
  | @yield th next _ _ _ _ _ => exact ⟨(hsave th).threads next, (hsave th).threads next, (hsave th).threads⟩
  | @exit_last th _ _ _ _ => exact ⟨h.pc, h.mismatch, (hsave th).threads⟩
  | @exit_next th next _ _ _ _ _ => exact ⟨(hsave th).threads next, (hsave th).threads next, (hsave th).threads⟩

/-- The prefetch abort arms the tracker, if it is enabled. -/
theorem handled_armed (h : Handled s t) : t.armed = (s.rw_tracker_enabled || s.armed) := by
  cases h with
  | unmarked _ _ => rw [saved_eq]
  | counted _ _ _ _ _ => rw [Checker.counted, saved_eq]
  | switched _ _ _ _ _ _ _ =>
    rw [counted_out, saved_eq]
    rfl

/-- System calls leave the tracker alone, and a thread resumes at a mismatch on its pc. -/
theorem trapped_flags {r : Progress (Checker (List ℕ))} (h : Trapped s r) :
    r.state.rw_tracker_enabled = s.rw_tracker_enabled ∧ r.state.armed = s.armed ∧
      ((∃ t, r = .running t ∧ t.mismatch = t.regs REGS_PC) ∨ ∃ t, r = .finished t ∧ t.mismatch = s.mismatch) := by
  cases h with
  | putc_back _ _ _ _ _ => exact ⟨rfl, rfl, .inl ⟨_, rfl, rfl⟩⟩
  | putc_next _ _ _ _ _ => exact ⟨rfl, rfl, .inl ⟨_, rfl, rfl⟩⟩
  | yield _ _ _ _ => exact ⟨rfl, rfl, .inl ⟨_, rfl, rfl⟩⟩
  | exit_last _ _ _ _ => exact ⟨rfl, rfl, .inr ⟨_, rfl, rfl⟩⟩
  | exit_next _ _ _ _ => exact ⟨rfl, rfl, .inl ⟨_, rfl, rfl⟩⟩

theorem armed_eq {f : DataFaults.Flags} (h : DataFaults.Agrees mmu x f) :
    decide (domain_access x.mmu.domain_access_ctrl kern_dom.toNat = 0b01) = f.armed := by
  rw [h.kern]
  cases f.armed <;> rfl

/-- A machine whose registers agree with its statics. -/
theorem view_eq {f : DataFaults.Flags} (h : DataFaults.Agrees mmu x f) (hs : s.armed = f.armed) (d : Debug) :
    Machine.view ⟨s, d, x.mmu⟩ = { s with mismatch := d.bvr0 } := by
  rw [Machine.view, armed_eq h, ← hs]

theorem Ready.of_flags {f : DataFaults.Flags} {d : Debug} (hdebug : Agrees d (some d.bvr0))
    (htracking : DataFaults.Agrees mmu x f) (harmed : s.armed = f.armed)
    (hwords : Words { s with mismatch := d.bvr0 }) : Ready mmu ⟨s, d, x.mmu⟩ := by
  have hview := view_eq htracking harmed d
  refine ⟨hdebug, ⟨rfl, htracking.tables, htracking.on, ?_, htracking.others⟩, hview ▸ hwords⟩
  rw [hview]
  exact harmed ▸ htracking.kern

/-- The debug registers when a thread resumes. -/
def resumed (lib : BitSetters) (pc : Word) (d : Debug) : Debug := { d with bcr0 := stepping lib d, bvr0 := pc }

theorem agrees_resumed (lib : BitSetters) (h : Ready mmu m) (pc : Word) :
    Agrees (resumed lib pc m.debug) (some pc) :=
  agrees_stepping lib (h.debug.on _ rfl).1 h.debug.monitor h.debug.static

theorem mismatch_fault_ok (lib : BitSetters) (h : Ready mmu m) (hs : equiv_hash_handler m.view = .ok s) :
    mismatch_fault lib m = .ok ⟨s, resumed lib (s.regs REGS_PC) m.debug,
      (DataFaults.rw_tracker_arm lib ⟨m.checker.rw_tracker_enabled, m.mmu⟩).mmu⟩ := by
  rw [mismatch_fault, hs]
  change (mismatch_pc_set lib (s.regs REGS_PC) m.debug >>= _) = _
  rw [mismatch_pc_set_on lib _ h.debug.static]
  rfl

theorem mismatch_fault_view (lib : BitSetters) (h : Ready mmu m) :
    (mismatch_fault lib m).map Machine.view = Checker.mismatch_fault m.view ∧
      ∀ m', mismatch_fault lib m = .ok m' → Ready mmu m' := by
  rw [Checker.mismatch_fault]
  cases hs : equiv_hash_handler m.view with
  | error e =>
    rw [mismatch_fault, hs]
    exact ⟨rfl, fun m' hm' => by cases hm'⟩
  | ok s =>
    have hhandled := equiv_hash_handler_iff.mp hs
    have hw := h.words.handled hhandled
    have htracking : DataFaults.Agrees mmu (DataFaults.rw_tracker_arm lib ⟨m.checker.rw_tracker_enabled, m.mmu⟩)
      ⟨m.view.rw_tracker_enabled, m.view.rw_tracker_enabled || m.view.armed⟩ := h.tracking.exec lib .arm
    rw [mismatch_fault_ok lib h hs]
    have harmed := handled_armed hhandled
    refine ⟨congrArg Except.ok (view_eq htracking harmed _), ?_⟩
    rintro m' ⟨⟩
    exact .of_flags (agrees_resumed lib h _) htracking harmed ⟨hw.pc, hw.pc, hw.threads⟩

/-- Where an access is recorded, only the status of the context switches and the report change. -/
theorem touch_handler_frame {touched : Finset Addr} (h : memory_touch_handler touched s = .ok t) :
    t = { s with ctx_switch_status := t.ctx_switch_status, pcs := t.pcs } := by
  unfold memory_touch_handler at h
  split at h
  · unfold ctx_switch_handler at h
    split at h
    · cases h
      rfl
    · split at h
      · cases h
        rfl
      · split at h
        · cases h
        · split at h
          · cases h
            split <;> rfl
          · cases h
            rfl
  · cases h
    rfl

theorem data_abort_view (lib : BitSetters) (h : Ready mmu m) (touched : Finset Addr) (w : Bool) :
    (rw_tracker_data_abort_handler lib touched
      (DataFaults.fault_status 0b01101 (kern_dom.setWidth 4) w) m).map Machine.view =
        Checker.rw_tracker_data_abort_handler touched w m.view ∧
      ∀ m', rw_tracker_data_abort_handler lib touched
        (DataFaults.fault_status 0b01101 (kern_dom.setWidth 4) w) m = .ok m' → Ready mmu m' := by
  have hw : decide ((if w then (1 : Word) else 0) ≠ 0) = w := by cases w <;> rfl
  rw [rw_tracker_data_abort_handler, DataFaults.fault_write_kern]
  change (Except.map Machine.view (Checker.rw_tracker_data_abort_handler touched
    (decide ((if w then (1 : Word) else 0) ≠ 0)) m.view >>= _)) = _ ∧ ∀ m', (Checker.rw_tracker_data_abort_handler
      touched (decide ((if w then (1 : Word) else 0) ≠ 0)) m.view >>= _) = _ → _
  rw [hw, Checker.rw_tracker_data_abort_handler]
  cases hs : memory_touch_handler touched m.view with
  | error e => exact ⟨rfl, fun m' hm' => by cases hm'⟩
  | ok s =>
    have hframe := touch_handler_frame hs
    have htracking : DataFaults.Agrees mmu (DataFaults.rw_tracker_disarm lib ⟨m.checker.rw_tracker_enabled, m.mmu⟩)
      ⟨m.view.rw_tracker_enabled, false⟩ := h.tracking.exec lib .disarm
    have hwords : Words s := by
      rw [hframe]
      exact ⟨h.words.pc, h.words.mismatch, h.words.threads⟩
    have hmismatch : s.mismatch = m.debug.bvr0 := by
      rw [hframe]
      rfl
    have hview := view_eq htracking (s := rw_tracker_disarm
      { s with current_tracker := s.current_tracker.record touched w }) rfl m.debug
    refine ⟨congrArg Except.ok (hview.trans ?_), ?_⟩
    · rw [← hmismatch]
      rfl
    · rintro m' ⟨⟩
      refine .of_flags h.debug htracking rfl ⟨hwords.pc, ?_, hwords.threads⟩
      exact hmismatch ▸ hwords.mismatch

/-- What is seen of a machine that runs or has finished. -/
def viewed : Progress Machine → Progress (Checker (List ℕ))
  | .running m => .running m.view
  | .finished m => .finished m.view

theorem system_call_view (lib : BitSetters) (h : Ready mmu m) {regs : Regs} (hregs : aligned (regs REGS_PC) 4) :
    (equiv_syscall_handler lib regs m).map viewed = Checker.equiv_syscall_handler { m.view with regs } ∧
      ∀ m', equiv_syscall_handler lib regs m = .ok (.running m') → Ready mmu m' := by
  rw [equiv_syscall_handler]
  cases hs : Checker.equiv_syscall_handler { m.view with regs } with
  | error e => exact ⟨rfl, fun m' hm' => by cases hm'⟩
  | ok r =>
    have htrapped := equiv_syscall_handler_iff.mp hs
    have hwords : Words { m.view with regs } := ⟨hregs, h.words.mismatch, h.words.threads⟩
    have hw := hwords.trapped htrapped
    obtain ⟨-, harmed, hend⟩ := trapped_flags htrapped
    rcases hend with ⟨t, rfl, hmismatch⟩ | ⟨t, rfl, hmismatch⟩
    · have hview := view_eq h.tracking harmed (resumed lib (t.regs REGS_PC) m.debug)
      change Except.map viewed (mismatch_pc_set lib (t.regs REGS_PC) m.debug >>= _) = _ ∧
        ∀ m', (mismatch_pc_set lib (t.regs REGS_PC) m.debug >>= _) = _ → _
      rw [mismatch_pc_set_on lib _ h.debug.static]
      refine ⟨congrArg (Except.ok ∘ Progress.running) (hview.trans ?_), ?_⟩
      · change { t with mismatch := t.regs REGS_PC } = t
        rw [← hmismatch]
      · rintro m' ⟨⟩
        exact .of_flags (agrees_resumed lib h _) h.tracking harmed ⟨hw.pc, hw.pc, hw.threads⟩
    · have hview := view_eq h.tracking harmed m.debug
      refine ⟨congrArg (Except.ok ∘ Progress.finished) (hview.trans ?_), fun m' hm' => by cases hm'⟩
      change { t with mismatch := m.view.mismatch } = t
      rw [← hmismatch]

theorem exec_view (h : Ready mmu m) {regs : Regs} {mem : Mem} (hregs : aligned (regs REGS_PC) 4) :
    Ready mmu { m with checker := { m.checker with regs, mem } } :=
  ⟨h.debug, h.tracking, hregs, h.words.mismatch, h.words.threads⟩

/-- How many exceptions may come before the next instruction retires. -/
def rank (m : Machine) : ℕ :=
  if fires m.debug (m.checker.regs REGS_PC) then 2 else if m.view.armed then 1 else 0

theorem rank_le (m : Machine) : rank m ≤ 2 := by
  unfold rank
  split_ifs <;> decide

theorem rank_quiet (hquiet : fires m.debug (m.checker.regs REGS_PC) = false) :
    rank m = if m.view.armed then 1 else 0 := by
  rw [rank, hquiet, if_neg Bool.false_ne_true]

theorem Ready.prefetch_quiet (h : Ready mmu m) (hquiet : fires m.debug (m.checker.regs REGS_PC) = false) :
    prefetch m.view = .ok m.view := by
  have hat : ¬m.view.regs REGS_PC ≠ m.view.mismatch := fun hne => by
    rw [h.fires_iff.mpr hne] at hquiet
    cases hquiet
  rw [prefetch, if_pos (not_not.mp hat)]

/-- An exception leaves the next instruction to be taken, with fewer exceptions before it;
everything else is an instruction of the checker. -/
inductive Sim (mmu : Mmu) (p : Platform) (m : Machine) : Except Fault (Progress Machine) → Prop where
  | stutter {next : Machine} (hready : Ready mmu next) (hstep : step p next.view = step p m.view)
      (hrank : rank next < rank m) : Sim mmu p m (.ok (.running next))
  | step {out} (hstep : out.map viewed = step p m.view)
      (hready : ∀ m', out = .ok (.running m') → Ready mmu m') : Sim mmu p m out

theorem step_eq_of_prefetch (hs : prefetch s = .ok t) (ht : prefetch t = .ok t) : step p s = step p t := by
  rw [step, step, hs, ht]

theorem sim_prefetch_abort (lib : BitSetters) (h : Ready mmu m)
    (hfires : fires m.debug (m.checker.regs REGS_PC) = true) :
    Sim mmu p m ((mismatch_fault lib m).map .running) := by
  obtain ⟨hview, hready⟩ := mismatch_fault_view lib h
  have hprefetch : prefetch m.view = (mismatch_fault lib m).map Machine.view := by
    rw [prefetch, if_neg (h.fires_iff.mp hfires), hview]
  cases hm : mismatch_fault lib m with
  | error e =>
    refine .step ?_ fun m' hm' => by cases hm'
    rw [step, hprefetch, hm]
    rfl
  | ok m' =>
    rw [hm] at hprefetch hview
    have hready' := hready m' hm
    obtain ⟨s, -, hs⟩ := bind_ok_iff.mp hview.symm
    have hat : m'.view.regs REGS_PC = m'.view.mismatch := by
      rw [← Except.ok.inj hs]
    have hquiet : fires m'.debug (m'.checker.regs REGS_PC) = false := by
      rw [Bool.eq_false_iff]
      exact fun hfires' => hready'.fires_iff.mp hfires' hat
    refine .stutter hready' (step_eq_of_prefetch hprefetch (hready'.prefetch_quiet hquiet)).symm ?_
    rw [rank_quiet hquiet, rank, if_pos hfires]
    split_ifs <;> decide

theorem step_exec (h : Ready mmu m) (hquiet : fires m.debug (m.checker.regs REGS_PC) = false)
    {touched : Finset Addr} {w : Bool} {regs : Regs} {mem : Mem}
    (hfetch : p.fetch m.checker.regs m.checker.mem = .exec touched w regs mem) :
    step p m.view = Except.map (fun s : Checker (List ℕ) => Progress.running { s with regs, mem })
      (access touched w m.view) := by
  have hfetch' : p.fetch m.view.regs m.view.mem = .exec touched w regs mem := hfetch
  rw [step, h.prefetch_quiet hquiet]
  simp only [bind, Except.bind, hfetch']
  cases access touched w m.view <;> rfl

theorem sim_data_abort (lib : BitSetters) (h : Ready mmu m) (hmapped : Mapped pm true mmu)
    (hdeclared : DataFaults.Declared pm) (hsuits : Suits p pm)
    (hquiet : fires m.debug (m.checker.regs REGS_PC) = false) {touched : Finset Addr} {w : Bool} {regs : Regs}
    {mem : Mem} {a dfsr : Word}
    (hfetch : p.fetch m.checker.regs m.checker.mem = .exec touched w regs mem) (ha : a ∈ touched)
    (hfault : DataFaults.access m.mmu false w a = .faults dfsr) :
    Sim mmu p m ((rw_tracker_data_abort_handler lib touched dfsr m).map .running) := by
  obtain ⟨e, hentry, hkern⟩ := hsuits.kernel _ _ _ _ _ _ hfetch a ha
  have haccess := h.tracking.access_eq hmapped hdeclared hentry false w
  by_cases harmed : m.view.armed = true
  · rw [if_pos ⟨hkern, harmed, rfl⟩] at haccess
    cases hfault.symm.trans haccess
    obtain ⟨hview, hready⟩ := data_abort_view lib h touched w
    have habort : access touched w m.view =
        (rw_tracker_data_abort_handler lib touched (DataFaults.fault_status 0b01101 (kern_dom.setWidth 4) w) m).map
          Machine.view := by
      rw [access, if_pos ⟨harmed, Finset.ne_empty_of_mem ha⟩, hview]
    cases hm : rw_tracker_data_abort_handler lib touched
        (DataFaults.fault_status 0b01101 (kern_dom.setWidth 4) w) m with
    | error f =>
      refine .step ?_ fun m' hm' => by cases hm'
      rw [step_exec h hquiet hfetch, habort, hm]
      rfl
    | ok m' =>
      rw [hm] at habort hview
      have hready' := hready m' hm
      obtain ⟨s, hs, hm'⟩ := bind_ok_iff.mp hview.symm
      have hsame : m'.checker.regs = m.checker.regs ∧ m'.checker.mem = m.checker.mem ∧
          m'.view.mismatch = m.view.mismatch ∧ m'.view.armed = false := by
        change m'.view.regs = m.view.regs ∧ m'.view.mem = m.view.mem ∧ _
        rw [← Except.ok.inj hm', touch_handler_frame hs]
        exact ⟨rfl, rfl, rfl, rfl⟩
      obtain ⟨hregs, hmem, hmismatch, hdisarmed⟩ := hsame
      have hquiet' : fires m'.debug (m'.checker.regs REGS_PC) = false := by
        rw [Bool.eq_false_iff, ne_eq, hready'.fires_iff]
        change ¬m'.checker.regs REGS_PC ≠ m'.view.mismatch
        rw [hregs, hmismatch]
        exact fun hne => Bool.eq_false_iff.mp hquiet (h.fires_iff.mpr hne)
      have hpass : access touched w m'.view = .ok m'.view :=
        if_neg fun hand => Bool.eq_false_iff.mp hdisarmed hand.1
      refine .stutter hready' ?_ ?_
      · rw [step_exec h hquiet hfetch, habort, step_exec hready' hquiet' (hregs ▸ hmem ▸ hfetch), hpass]
        rfl
      · rw [rank_quiet hquiet, rank_quiet hquiet', harmed, hdisarmed]
        decide
  · rw [if_neg fun hand => harmed hand.2.1] at haccess
    cases hfault.symm.trans haccess

theorem micro_sim (lib : BitSetters) (h : Ready mmu m) (hmapped : Mapped pm true mmu)
    (hdeclared : DataFaults.Declared pm) (hsuits : Suits p pm) (hr : Micro lib p m r) : Sim mmu p m r := by
  cases hr with
  | prefetch_abort hfires => exact sim_prefetch_abort lib h hfires
  | data_abort hquiet hfetch ha hfault =>
    exact sim_data_abort lib h hmapped hdeclared hsuits hquiet hfetch ha hfault
  | @exec touched w regs mem hquiet hfetch hreach =>
    have hpass : access touched w m.view = .ok m.view := by
      refine if_neg fun hand => ?_
      obtain ⟨a, ha⟩ := Finset.nonempty_iff_ne_empty.mpr hand.2
      obtain ⟨e, hentry, hkern⟩ := hsuits.kernel _ _ _ _ _ _ hfetch a ha
      have haccess := h.tracking.access_eq hmapped hdeclared hentry false w
      rw [if_pos ⟨hkern, hand.1, rfl⟩] at haccess
      cases (hreach a ha).symm.trans haccess
    refine .step ?_ ?_
    · rw [step_exec h hquiet hfetch, hpass]
      rfl
    · rintro m' ⟨⟩
      exact exec_view h (hsuits.exec _ _ _ _ _ _ h.words.pc hfetch)
  | @swi regs hquiet hfetch =>
    obtain ⟨hview, hready⟩ := system_call_view lib h (hsuits.swi _ _ _ h.words.pc hfetch)
    refine .step ?_ hready
    have hfetch' : p.fetch m.view.regs m.view.mem = .swi regs := hfetch
    rw [hview, step, h.prefetch_quiet hquiet]
    simp only [bind, Except.bind, hfetch']

/-- There is always an exception to take or an instruction to retire. -/
theorem micro_exists (lib : BitSetters) (h : Ready mmu m) (hmapped : Mapped pm true mmu)
    (hdeclared : DataFaults.Declared pm) (hsuits : Suits p pm) : ∃ r, Micro lib p m r := by
  cases hfires : fires m.debug (m.checker.regs REGS_PC) with
  | true => exact ⟨_, .prefetch_abort hfires⟩
  | false =>
    cases hfetch : p.fetch m.checker.regs m.checker.mem with
    | swi regs => exact ⟨_, .swi hfires hfetch⟩
    | exec touched w regs mem =>
      by_cases hreach : ∀ a ∈ touched, DataFaults.access m.mmu false w a = .reaches a
      · exact ⟨_, .exec hfires hfetch hreach⟩
      · push Not at hreach
        obtain ⟨a, ha, hne⟩ := hreach
        obtain ⟨e, hentry, hkern⟩ := hsuits.kernel _ _ _ _ _ _ hfetch a ha
        have haccess := h.tracking.access_eq hmapped hdeclared hentry false w
        split_ifs at haccess with harmed
        · exact ⟨_, .data_abort hfires hfetch ha haccess⟩
        · exact absurd haccess hne

/-- The next instruction of the checker is taken after at most `rank m` exceptions. -/
theorem micros_step (lib : BitSetters) (h : Ready mmu m) (hmapped : Mapped pm true mmu)
    (hdeclared : DataFaults.Declared pm) (hsuits : Suits p pm) :
    ∃ k r, k ≤ rank m + 1 ∧ Micros lib p k m r ∧ r.map viewed = step p m.view ∧
      ∀ m', r = .ok (.running m') → Ready mmu m' := by
  induction hn : rank m using Nat.strong_induction_on generalizing m with
  | _ n ih =>
    obtain ⟨r, hr⟩ := micro_exists lib h hmapped hdeclared hsuits
    cases micro_sim lib h hmapped hdeclared hsuits hr with
    | @stutter m' hready hstep hrank =>
      obtain ⟨k, r, hk, hrun, hview, hnext⟩ := ih (rank m') (hn ▸ hrank) hready rfl
      exact ⟨k + 1, r, by omega, .step hr hrun, hview.trans hstep, hnext⟩
    | step hstep hready =>
      by_cases hgoes : ∃ m', r = .ok (.running m')
      · obtain ⟨m', rfl⟩ := hgoes
        exact ⟨1, _, by omega, .step hr (.none m'), hstep, hready⟩
      · exact ⟨1, r, by omega, .stop hr (fun m' hm' => hgoes ⟨m', hm'⟩), hstep, hready⟩

theorem Micros.append {k j : ℕ} (h : Micros lib p k m (.ok (.running m'))) (hr : Micros lib p j m' r) :
    Micros lib p (k + j) m r := by
  generalize hmid : Except.ok (Progress.running m') = mid at h
  induction h with
  | none m =>
    cases hmid
    rw [Nat.zero_add]
    exact hr
  | stop _ hstop => exact absurd hmid.symm (hstop m')
  | step hm _ ih =>
    rw [Nat.add_right_comm]
    exact .step hm (ih hmid)

theorem steps_of_step {out : Except Fault (Progress (Checker (List ℕ)))} (n : ℕ) (h : step p s = out) :
    steps p (n + 1) s = out >>= fun r => match r with
      | .running t => steps p n t
      | .finished t => .ok (.finished t) := by
  rw [steps, h]
  cases out with
  | error e => rfl
  | ok r => cases r <;> rfl

theorem steps_congr (h : step p s = step p t) (n : ℕ) : steps p (n + 1) s = steps p (n + 1) t := by
  rw [steps, steps, h]

/-- Every run of the checker is one of the machine. -/
theorem micros_complete (lib : BitSetters) (h : Ready mmu m) (hmapped : Mapped pm true mmu)
    (hdeclared : DataFaults.Declared pm) (hsuits : Suits p pm) (n : ℕ) :
    ∃ k ≤ 3 * n, ∃ r, Micros lib p k m r ∧ r.map viewed = steps p n m.view := by
  induction n generalizing m with
  | zero => exact ⟨0, Nat.le_refl 0, _, .none m, rfl⟩
  | succ n ih =>
    obtain ⟨k, r, hk, hrun, hview, hnext⟩ := micros_step lib h hmapped hdeclared hsuits
    have hrank := rank_le m
    cases r with
    | error e => exact ⟨k, by omega, _, hrun, (steps_of_step n hview.symm).symm⟩
    | ok r =>
      cases r with
      | finished m' => exact ⟨k, by omega, _, hrun, (steps_of_step n hview.symm).symm⟩
      | running m' =>
        obtain ⟨j, hj, r, hrest, hend⟩ := ih (hnext m' rfl)
        exact ⟨k + j, by omega, r, hrun.append hrest, hend.trans (steps_of_step n hview.symm).symm⟩

/-- Where `k` exceptions and instructions of the machine are in the run of the checker: after `n`
instructions, perhaps with exceptions of the next one taken already, or at the end. -/
inductive Reached (p : Platform) (m : Machine) (k n : ℕ) : Except Fault (Progress Machine) → Prop where
  | running {next : Machine} {s : Checker (List ℕ)} (hrun : steps p n m.view = .ok (.running s))
      (hstep : step p next.view = step p s) (hrank : k + rank next ≤ 3 * n + rank m) :
      Reached p m k n (.ok (.running next))
  | ended {out} (hrun : steps p n m.view = out.map viewed) (hends : ∀ next, out ≠ .ok (.running next)) :
      Reached p m k n out

/-- Every run of the machine is one of the checker. -/
theorem micros_sound (lib : BitSetters) {k : ℕ} (h : Ready mmu m) (hmapped : Mapped pm true mmu)
    (hdeclared : DataFaults.Declared pm) (hsuits : Suits p pm) (hr : Micros lib p k m r) :
    ∃ n ≤ k, Reached p m k n r := by
  induction hr with
  | none m => exact ⟨0, Nat.le_refl 0, .running rfl rfl (by omega)⟩
  | @stop m r hm hstop =>
    cases micro_sim lib h hmapped hdeclared hsuits hm with
    | @stutter m' _ _ _ => exact absurd rfl (hstop m')
    | step hstep _ =>
      refine ⟨1, Nat.le_refl 1, .ended ?_ hstop⟩
      rw [steps_of_step 0 hstep.symm]
      cases r with
      | error e => rfl
      | ok r =>
        cases r with
        | finished m' => rfl
        | running m' => exact absurd rfl (hstop m')
  | @step m m' r k hm hrest ih =>
    cases micro_sim lib h hmapped hdeclared hsuits hm with
    | stutter hready hstep hrank =>
      obtain ⟨n, hn, hreached⟩ := ih hready
      cases hreached with
      | running hrun hstep' hrank' =>
        cases n with
        | zero =>
          cases hrun
          exact ⟨0, Nat.zero_le _, .running rfl (hstep'.trans hstep) (by omega)⟩
        | succ n => exact ⟨n + 1, by omega, .running ((steps_congr hstep n).symm.trans hrun) hstep' (by omega)⟩
      | ended hrun hends =>
        cases n with
        | zero =>
          cases r with
          | error e => cases hrun
          | ok r =>
            cases r with
            | finished m'' => cases hrun
            | running m'' => exact absurd rfl (hends m'')
        | succ n => exact ⟨n + 1, by omega, .ended ((steps_congr hstep n).symm.trans hrun) hends⟩
    | step hstep hready =>
      obtain ⟨n, hn, hreached⟩ := ih (hready m' rfl)
      have hsteps := steps_of_step n hstep.symm
      have hrank := rank_le m'
      refine ⟨n + 1, by omega, ?_⟩
      cases hreached with
      | running hrun hstep' hrank' => exact .running (hsteps.trans hrun) hstep' (by omega)
      | ended hrun hends => exact .ended (hsteps.trans hrun) hends

/-- The machine when threads run: the kernel was mapped, stepping was turned on, and otherwise
the tracker and the breakpoint may have been used in any way. -/
structure Booted (lib : BitSetters) (mmu : Mmu) (m : Machine) : Prop where
  debug : ∃ calls d q, d.single_step_on_p = false ∧ d.dscr.getLsbD 14 = false ∧ d.bcr0.getLsbD 0 = false ∧
    MiniStep.execAll lib calls d = .ok m.debug ∧ MiniStep.nextAll calls none = some (some q)
  tracking : ∃ calls enabled,
    DataFaults.execAll lib calls ⟨enabled, mmu⟩ = ⟨m.checker.rw_tracker_enabled, m.mmu⟩
  words : Words m.view

theorem Booted.ready (h : Booted lib mmu m) (hmapped : Mapped pm true mmu) (hdeclared : DataFaults.Declared pm) :
    Ready mmu m := by
  obtain ⟨calls, d, q, hoff, hmonitor, hdisabled, hrun, hnext⟩ := h.debug
  obtain ⟨calls', enabled, htracking⟩ := h.tracking
  have hstart : Agrees d none :=
    ⟨hoff, hmonitor, fun _ => hdisabled, fun q hq => absurd hq.symm (Option.some_ne_none q)⟩
  obtain ⟨d', hd', hagrees, -⟩ := execAll_allowed lib hstart hnext
  cases hrun.symm.trans hd'
  have hflags := (DataFaults.Agrees.start hmapped hdeclared enabled).execAll lib calls'
  rw [htracking] at hflags
  have hq : m.debug.bvr0 = q := (hagrees.on q rfl).2.1
  have harmed : m.view.armed = (DataFaults.nextAll calls' ⟨enabled, false⟩).armed := armed_eq hflags
  refine ⟨hq ▸ hagrees, ⟨rfl, hflags.tables, hflags.on, ?_, hflags.others⟩, h.words⟩
  rw [harmed]
  exact hflags.kern

/-- What the registers make the machine do is what the checker's threads do: `n` instructions of
the checker take at most `3 * n` exceptions and instructions of the machine, and whatever the
machine has done is a run of the checker, perhaps with exceptions of the next instruction. -/
theorem machine_refines_checker (getters : BitGetters) (lib : BitSetters) (p : Platform) (pm : Procmap)
    (mmu₀ mmu : Mmu) (m : Machine) (hdeclared : DataFaults.Declared pm) (hsuits : Suits p pm)
    (hmap : vm_map_kernel getters pm true mmu₀ = .ok mmu) (hbooted : Booted lib mmu m) :
    (∀ n, ∃ k ≤ 3 * n, ∃ r, Micros lib p k m r ∧ r.map viewed = steps p n m.view) ∧
      ∀ k r, Micros lib p k m r → ∃ n ≤ k, Reached p m k n r := by
  have hmapped := Mapped.of_vm_map_kernel hmap
  have hready := hbooted.ready hmapped hdeclared
  exact ⟨micros_complete lib hready hmapped hdeclared hsuits, fun k r =>
    micros_sound lib hready hmapped hdeclared hsuits⟩

/-- Instructions that store a word to the stack. -/
def storing : Platform where
  fetch regs mem := .exec {0x7ffffc0} true (Function.update regs REGS_PC (regs REGS_PC + 4)) mem
  user_cpsr := 0x10
  sys_equiv_exit := 0
  kmalloc_aligned _ := 0x7fff000

/-- One thread, at the start of `find_rw_set`. -/
def storingStart : Checker (List ℕ) where
  equiv_runq := []
  threads _ := { regs := fun _ => 0x300010, tid := 1, fn := 0x300010, args := 0, stack_start := 0, stack_end := 0 }
  allocated := 1
  ntids := 2
  cur_thread := some 0
  ctx_switch_status := ⟨0, 0, false, false⟩
  schedule := none
  shared_memory := none
  pcs := []
  rw_tracker_enabled := true
  armed := false
  current_tracker := ⟨some ∅, some ∅⟩
  touch_handler := false
  mismatch := 0
  regs _ := 0x300010
  mem _ := 0
  uart := []
  nullReads := 0

theorem storing_suits : Suits storing
    ⟨0b110, default_entries ⟨MB, MB, MB + MB, 0x9000000, 0x8000000⟩ kern_dom user_dom⟩ where
  exec regs mem touched w regs' mem' hpc hfetch := by
    cases hfetch
    rw [Function.update_self, aligned, BitVec.toNat_add]
    rw [aligned] at hpc
    have hfour : (4 : Word).toNat = 4 := rfl
    omega
  swi regs mem regs' _ hfetch := by cases hfetch
  kernel regs mem touched w regs' mem' hfetch a ha := by
    cases hfetch
    rw [Finset.mem_singleton.mp ha]
    exact ⟨⟨0x8000000 - MB, MB, MEM_RW, kern_dom⟩, ⟨[_, _, _, _, _, _, _], [], rfl, by decide, by decide⟩, rfl⟩

/-- Two stores of the thread. -/
theorem machine_refines_checker_storing : ∃ mmu m,
    vm_map_kernel libpi ⟨0b110, default_entries ⟨MB, MB, MB + MB, 0x9000000, 0x8000000⟩ kern_dom user_dom⟩ true
      ⟨0, 0, 0, ⟨fun _ => 0, fun _ => 0⟩⟩ = .ok mmu ∧
    ∃ k ≤ 6, ∃ r, Micros .libpi storing k m r ∧ r.map viewed = steps storing 2 m.view := by
  have hmappable : Mappable ⟨0b110, default_entries ⟨MB, MB, MB + MB, 0x9000000, 0x8000000⟩ kern_dom user_dom⟩
    ⟨0, 0, 0, ⟨fun _ => 0, fun _ => 0⟩⟩ := default_mappable (by decide) (by decide) rfl
  obtain ⟨mmu, hmap⟩ := (@vm_map_kernel_ok_iff libpi _ _ true).mpr hmappable
  have hstart : Agrees ⟨0, 0, 0, false⟩ none :=
    ⟨rfl, rfl, fun _ => rfl, fun q hq => absurd hq.symm (Option.some_ne_none q)⟩
  obtain ⟨d, hd, hagrees, -⟩ := @execAll_allowed _ _ (some 0) .libpi [.init, .on] hstart rfl
  have hbooted : Booted .libpi mmu
      ⟨storingStart, d, (DataFaults.execAll .libpi [.init false, .enable] ⟨false, mmu⟩).mmu⟩ := by
    refine ⟨⟨[.init, .on], _, 0, rfl, rfl, rfl, hd, rfl⟩, ⟨[.init false, .enable], false, rfl⟩, ?_⟩
    have hzero : d.bvr0 = 0 := (hagrees.on 0 rfl).2.1
    have haligned : aligned d.bvr0 4 := by
      rw [hzero]
      decide
    have hpc : aligned (0x300010 : Word) 4 := by decide
    exact ⟨hpc, haligned, fun _ => hpc⟩
  have hrefines := machine_refines_checker libpi .libpi storing
    ⟨0b110, default_entries ⟨MB, MB, MB + MB, 0x9000000, 0x8000000⟩ kern_dom user_dom⟩ _ mmu _
    ⟨by decide, by decide⟩ storing_suits hmap hbooted
  exact ⟨mmu, _, hmap, hrefines.1 2⟩

end EquivChecker.TrapMachine
