import EquivChecker.Fault
import EquivChecker.RunQueue
import Mathlib.Data.Finset.Basic

/-!
# Checker threads under single-stepping

Threads run at user level in mismatch mode: every instruction first raises a
prefetch abort (`equiv_hash_handler`), a data access of an armed thread raises a
data abort (`rw_tracker_data_abort_handler`), and `swi` enters
`equiv_syscall_handler`. The instruction set is a parameter. The run queue is any
`RunQueue` of thread pointers, here numbers in the order of allocation.
-/

namespace EquivChecker

/-- `regs_t`: r0 to r15 and the cpsr. -/
abbrev Regs := Fin 17 → Word

instance neZeroRegs : NeZero 17 := ⟨by decide⟩

def REGS_SP : Fin 17 := 13
def REGS_LR : Fin 17 := 14
def REGS_PC : Fin 17 := 15
def REGS_CPSR : Fin 17 := 16

def stack_size : Word := 1024 * 2

def EQUIV_EXIT : Word := 0
def EQUIV_PUTC : Word := 1
def EQUIV_YIELD : Word := 3

/-- One user-level instruction: an ordinary one with the kernel bytes it accesses (as
`get_touched_bytes` computes them), or a trap with the registers behind it. -/
inductive Instr where
  | exec (touched : Finset Addr) (write : Bool) (regs : Regs) (mem : Mem)
  | swi (regs : Regs)

/-- What the checker finds around it: the instruction set, `cpsr_inherit(USER_MODE, cpsr_get())`,
the address of `sys_equiv_exit`, and the address of the `k`-th thread block. -/
structure Platform where
  fetch : Regs → Mem → Instr
  user_cpsr : Word
  sys_equiv_exit : Word
  kmalloc_aligned : ℕ → Word

structure Schedule where
  tids : List ℕ
  instr_counts : List ℕ
  n_ctx_switches : ℕ
  n_funcs : ℕ
  /-- The schedule has a report to write program counters to. -/
  report : Bool
  deriving DecidableEq, Repr

structure EqTh where
  regs : Regs
  tid : ℕ
  fn : Word
  args : Word
  stack_start : Word
  stack_end : Word

structure CtxSwitchStatus where
  ctx_switch : ℕ
  instr_count : ℕ
  do_instr_count : Bool
  yielded : Bool
  deriving DecidableEq, Repr

/-- `rw_tracker_t`, as far as the abort handler writes to it. -/
structure Tracker where
  read : Option (Finset Addr)
  write : Option (Finset Addr)

/-- Where the bytes of one data abort go. -/
def Tracker.record (t : Tracker) (touched : Finset Addr) (w : Bool) : Tracker :=
  match t.write, w, t.read with
  | some write, true, _ => { t with write := some (write ∪ touched) }
  | _, false, some read => { t with read := some (read ∪ touched) }
  | _, _, _ => t

/-- The statics of `equiv-threads.c` and `equiv-rw-set.c`, the registers and memory of
the CPU, and the mismatch register. -/
structure Checker (Q : Type) where
  equiv_runq : Q
  threads : ℕ → EqTh
  /-- Thread blocks allocated so far; the next block gets this number. -/
  allocated : ℕ
  ntids : ℕ
  cur_thread : Option ℕ
  ctx_switch_status : CtxSwitchStatus
  schedule : Option Schedule
  shared_memory : Option (Finset Addr)
  /-- Stores `report->pcs[c][i] = pc`, oldest first. -/
  pcs : List (ℕ × ℕ × Word)
  rw_tracker_enabled : Bool
  /-- Permission checks are on for kernel memory. -/
  armed : Bool
  current_tracker : Tracker
  /-- `memory_touch_handler` is `ctx_switch_handler`, or NULL. -/
  touch_handler : Bool
  mismatch : Word
  regs : Regs
  mem : Mem
  uart : List Word
  /-- Reads of a thread field through a null pointer, which on the Pi go on with garbage. -/
  nullReads : ℕ

/-- Whether `equiv_run` has returned through `switchto(&start_regs)`. -/
inductive Progress (α : Type) where
  | running (s : α)
  | finished (s : α)

def Progress.running? {α : Type} : Progress α → Option α
  | .running s => some s
  | .finished _ => none

def Progress.finished? {α : Type} : Progress α → Option α
  | .running _ => none
  | .finished s => some s

theorem Progress.eq_running {α : Type} {r : Except Fault (Progress α)} {s : α}
    (h : r.toOption.bind running? = some s) : r = .ok (.running s) := by
  cases r with
  | error e => cases h
  | ok x =>
    cases x with
    | running t => rw [Option.some.inj h]
    | finished t => cases h

theorem Progress.eq_finished {α : Type} {r : Except Fault (Progress α)} {s : α}
    (h : r.toOption.bind finished? = some s) : r = .ok (.finished s) := by
  cases r with
  | error e => cases h
  | ok x =>
    cases x with
    | running t => cases h
    | finished t => rw [Option.some.inj h]

namespace Checker
variable {Q : Type} [RunQueue Q ℕ]
open RunQueue

/-- `equiv_regs_init`: everything not set is zero. -/
def equiv_regs_init (p : Platform) (th : EqTh) : Regs := fun i =>
  if i = 0 then th.args
  else if i = REGS_PC then th.fn
  else if i = REGS_SP then th.stack_end
  else if i = REGS_LR then p.sys_equiv_exit
  else if i = REGS_CPSR then p.user_cpsr
  else 0

def check_sp (th : EqTh) : Except Fault Unit :=
  if th.regs REGS_SP < th.stack_start then .error (.panic "stack is too small")
  else if th.stack_end < th.regs REGS_SP then .error (.panic "stack is too high")
  else .ok ()

def setThread (s : Checker Q) (th : ℕ) (t : EqTh) : Checker Q :=
  { s with threads := Function.update s.threads th t }

/-- `equiv_fork`, with the new thread's pointer. -/
def equiv_fork (p : Platform) (fn args : Word) (s : Checker Q) : Except Fault (ℕ × Checker Q) := do
  let th := s.allocated
  let start := p.kmalloc_aligned th
  let t : EqTh :=
    { regs := fun _ => 0, tid := s.ntids, fn, args, stack_start := start
      stack_end := start + stack_size }
  let t := { t with regs := equiv_regs_init p t }
  check_sp t
  .ok (th, { s.setThread th t with
    allocated := th + 1, ntids := s.ntids + 1, equiv_runq := push th s.equiv_runq })

/-- Re-initialize and put back on the run queue. -/
def equiv_refresh (p : Platform) (th : ℕ) (s : Checker Q) : Except Fault (Checker Q) := do
  let t := { s.threads th with regs := equiv_regs_init p (s.threads th) }
  check_sp t
  .ok { s.setThread th t with equiv_runq := push th s.equiv_runq }

/-- The loop of `retrieve_tid_from_queue`. It pops the next thread before it appends
the previous one. -/
def retrieveLoop (threads : ℕ → EqTh) (tid first_tid : ℕ) : ℕ → ℕ → Q → Except Fault (ℕ × Q)
  | fuel, th, q =>
    if (threads th).tid = tid then .ok (th, q)
    else match fuel with
      | 0 => .error .spins
      | fuel + 1 => match pop q with
        | (none, _) => .error .nullDeref
        | (some th', q) =>
          let q := append th q
          if (threads th').tid = first_tid then
            .error (.panic "specified tid is not in the queue")
          else retrieveLoop threads tid first_tid fuel th' q

/-- A queue of allocated threads, each once, is turned at most `allocated` times. -/
def retrieve_tid_from_queue (tid : ℕ) (s : Checker Q) : Except Fault (ℕ × Checker Q) := do
  match pop s.equiv_runq with
  | (none, _) => .error .nullDeref
  | (some th, q) =>
    let (th, q) ← retrieveLoop s.threads tid (s.threads th).tid s.allocated th q
    .ok (th, { s with equiv_runq := q })

/-- Resume a thread: its first instruction raises no mismatch fault. -/
def mismatch_run (th : ℕ) (s : Checker Q) : Checker Q :=
  { s with regs := (s.threads th).regs, mismatch := (s.threads th).regs REGS_PC }

def rw_tracker_arm (s : Checker Q) : Checker Q :=
  if s.rw_tracker_enabled then { s with armed := true } else s

def rw_tracker_disarm (s : Checker Q) : Checker Q := { s with armed := false }

def reset_ctx_switch (s : Checker Q) : Checker Q :=
  { s with ctx_switch_status := ⟨0, 0, false, false⟩ }

def enable_ctx_switch (sched : Schedule) (shared_mem : Finset Addr) (s : Checker Q) : Checker Q :=
  reset_ctx_switch { s with schedule := some sched, shared_memory := some shared_mem }

def disable_ctx_switch (s : Checker Q) : Checker Q :=
  reset_ctx_switch { s with schedule := none, shared_memory := none }

def ctx_switch_handler (touched_memory : Finset Addr) (pc : Word) (s : Checker Q) :
    Except Fault (Checker Q) :=
  match s.schedule with
  | none => .ok s
  | some schedule =>
    if schedule.n_ctx_switches ≤ s.ctx_switch_status.ctx_switch then .ok s
    else match s.shared_memory with
      | none => .error .nullDeref
      | some shared_memory =>
        if shared_memory ∩ touched_memory ≠ ∅ then
          let s := if schedule.report then
              { s with pcs := s.pcs ++
                [(s.ctx_switch_status.ctx_switch, s.ctx_switch_status.instr_count, pc)] }
            else s
          .ok { s with ctx_switch_status := { s.ctx_switch_status with do_instr_count := true } }
        else .ok s

/-- `memory_touch_handler(touched, pc)`, if one is installed. -/
def memory_touch_handler (touched : Finset Addr) (s : Checker Q) : Except Fault (Checker Q) :=
  if s.touch_handler then ctx_switch_handler touched (s.regs REGS_PC) s else .ok s

def rw_tracker_data_abort_handler (touched : Finset Addr) (w : Bool) (s : Checker Q) :
    Except Fault (Checker Q) := do
  let s ← memory_touch_handler touched s
  .ok (rw_tracker_disarm { s with current_tracker := s.current_tracker.record touched w })

/-- `cur_thread`, read as a pointer. -/
def cur (s : Checker Q) : Except Fault ℕ :=
  match s.cur_thread with
  | none => .error .nullDeref
  | some th => .ok th

def readAt (l : List ℕ) (i : ℕ) : Except Fault ℕ :=
  match l[i]? with
  | none => .error .outOfBounds
  | some v => .ok v

def equiv_hash_handler (s : Checker Q) : Except Fault (Checker Q) := do
  let s := rw_tracker_arm s
  let th ← s.cur
  let s := s.setThread th { s.threads th with regs := s.regs }
  if s.ctx_switch_status.do_instr_count then
    let st := { s.ctx_switch_status with
      do_instr_count := false, instr_count := s.ctx_switch_status.instr_count + 1 }
    match s.schedule with
    | none => .error .nullDeref
    | some schedule =>
      let count ← readAt schedule.instr_counts st.ctx_switch
      if count ≤ st.instr_count then
        -- the thread has done its share: switch to the next one of the schedule
        let st := { st with ctx_switch := st.ctx_switch + 1, instr_count := 0 }
        let tid ← readAt schedule.tids st.ctx_switch
        let (next, s) ← retrieve_tid_from_queue tid { s with ctx_switch_status := st }
        .ok (mismatch_run next
          { s with equiv_runq := append th s.equiv_runq, cur_thread := some next })
      else .ok { s with ctx_switch_status := st }
  else .ok s

/-- `mismatch_fault`: the handler, then a mismatch on the pc that is resumed. -/
def mismatch_fault (s : Checker Q) : Except Fault (Checker Q) := do
  let s ← equiv_hash_handler s
  .ok { s with mismatch := s.regs REGS_PC }

/-- The end of `equiv_schedule`, reached from `EQUIV_PUTC`. -/
def equiv_schedule (th : ℕ) (s : Checker Q) : Except Fault (Checker Q) :=
  if s.schedule.any (s.ctx_switch_status.ctx_switch < ·.n_ctx_switches) then
    .error (.panic "BAD")
  else match pop s.equiv_runq with
    | (none, _) => .ok (mismatch_run th s)
    | (some next, q) =>
      .ok (mismatch_run next { s with equiv_runq := append th q, cur_thread := some next })

def equiv_syscall_handler (s : Checker Q) : Except Fault (Progress (Checker Q)) := do
  let th ← s.cur
  let s := s.setThread th { s.threads th with regs := s.regs }
  check_sp (s.threads th)
  let sysno := s.regs 0
  if sysno = EQUIV_PUTC then
    let s ← equiv_schedule th { s with uart := s.uart ++ [s.regs 1] }
    .ok (.running s)
  else if sysno = EQUIV_YIELD then
    let s := { s with
      schedule := none, ctx_switch_status := { s.ctx_switch_status with yielded := true } }
    match pop (append th s.equiv_runq) with
    | (none, _) => .error .nullDeref
    | (some next, q) =>
      .ok (.running (mismatch_run next { s with equiv_runq := q, cur_thread := some next }))
  else if sysno = EQUIV_EXIT then
    let s := { s with schedule := none }
    match pop s.equiv_runq with
    -- the verbosity of the thread that is not there is read before the switch back
    | (none, q) => .ok (.finished { s with equiv_runq := q, nullReads := s.nullReads + 1 })
    | (some next, q) =>
      .ok (.running (mismatch_run next { s with equiv_runq := q, cur_thread := some next }))
  else .error (.panic "illegal system call")

/-- The mismatch register is set to the pc of a resumed instruction. -/
def prefetch (s : Checker Q) : Except Fault (Checker Q) :=
  if s.regs REGS_PC = s.mismatch then .ok s else mismatch_fault s

/-- Kernel bytes accessed by an armed thread raise a data abort before the access. -/
def access (touched : Finset Addr) (w : Bool) (s : Checker Q) : Except Fault (Checker Q) :=
  if s.armed ∧ touched ≠ ∅ then rw_tracker_data_abort_handler touched w s else .ok s

/-- One instruction of the current thread, with the traps it raises. -/
def step (p : Platform) (s : Checker Q) : Except Fault (Progress (Checker Q)) := do
  let s ← prefetch s
  match p.fetch s.regs s.mem with
  | .exec touched w regs mem =>
    let s ← access touched w s
    .ok (.running { s with regs, mem })
  | .swi regs => equiv_syscall_handler { s with regs }

/-- At most `fuel` instructions. -/
def steps (p : Platform) : ℕ → Checker Q → Except Fault (Progress (Checker Q))
  | 0, s => .ok (.running s)
  | fuel + 1, s => do
    match ← step p s with
    | .running s => steps p fuel s
    | .finished s => .ok (.finished s)

/-- `equiv_run` up to its first switch to user level. -/
def equiv_run_start (s : Checker Q) : Except Fault (Checker Q) := do
  match s.schedule with
  | none => match pop s.equiv_runq with
    | (none, _) => .error (.panic "empty run queue?")
    | (some th, q) =>
      .ok { s with
        equiv_runq := q, cur_thread := some th, mismatch := 0, regs := (s.threads th).regs }
  | some schedule =>
    let tid ← readAt schedule.tids 0
    let (th, s) ← retrieve_tid_from_queue tid s
    .ok { s with cur_thread := some th, mismatch := 0, regs := (s.threads th).regs }

def equiv_run (p : Platform) (fuel : ℕ) (s : Checker Q) : Except Fault (Progress (Checker Q)) := do
  steps p fuel (← equiv_run_start s)

end Checker

end EquivChecker
