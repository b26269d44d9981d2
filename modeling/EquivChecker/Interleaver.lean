import EquivChecker.Threads
import EquivChecker.Odometer

/-!
# Exploring the schedules

`run_interleavings` forks one thread per function and then runs one schedule after
another. After a run the last context switch that happened tells which instruction
count is incremented next, and when none happened the next thread order is taken.
What is printed about a run depends on its `Run` record; the report buffers of
verbosity 3 only matter to `print_schedule`. The counters are natural numbers: on the Pi they wrap
only in a run of 2^32 shared accesses.
-/

namespace EquivChecker

structure FunctionExec where
  func_addr : Word
  var_list : Word
  deriving DecidableEq, Repr

/-- What a schedule led to: the status that `get_ctx_switch_status` returns after
`equiv_run`, and the memory at that point. -/
structure Run where
  tids : List ℕ
  instr_nums : List ℕ
  status : CtxSwitchStatus
  mem : Mem

/-- The variables of the loop, and the runs it has made, oldest first. -/
structure Explorer (Q : Type) where
  tids : List ℕ
  instr_nums : List ℕ
  checker : Checker Q
  runs : List Run

namespace Interleaver

/-- No two neighbours are equal. -/
def tids_valid : List ℕ → Bool
  | t :: u :: ts => t != u && tids_valid (u :: ts)
  | _ => true

/-- The inner loop of `next_tid`: an entry is incremented on a carry, and starts at 1
again with a carry when it passes `num_funcs`. -/
def increment (num_funcs : ℕ) : Bool → List ℕ → List ℕ × Bool
  | carry, [] => ([], carry)
  | carry, t :: ts =>
    let t := if carry then t + 1 else t
    if num_funcs < t then
      let (ts, carry) := increment num_funcs true ts
      (1 :: ts, carry)
    else
      let (ts, carry) := increment num_funcs false ts
      (t :: ts, carry)

/-- The outer loop of `next_tid`; the first entry is always incremented. -/
def next_tid_loop (num_funcs : ℕ) : ℕ → List ℕ → Except Fault (Option (List ℕ))
  | 0, _ => .error .spins
  | fuel + 1, tids =>
    let (tids, carry) := increment num_funcs true tids
    if carry then .ok none
    else if tids_valid tids then .ok (some tids)
    else next_tid_loop num_funcs fuel tids

/-- The next thread order, or none where the code returns 0. There are
`num_funcs ^ tids.length` orders. -/
def next_tid (num_funcs : ℕ) (tids : List ℕ) : Except Fault (Option (List ℕ)) :=
  next_tid_loop num_funcs (num_funcs ^ tids.length) tids

section
variable {Q : Type} [RunQueue Q ℕ]
open Checker RunQueue

def reset_ntids (s : Checker Q) : Except Fault (Checker Q) :=
  match pop s.equiv_runq with
  | (none, _) => .ok { s with ntids := 1 }
  | (some _, _) => .error (.panic "eq_empty(&equiv_runq)")

/-- The loop of `init_threads`. Every thread is forked with the argument NULL. -/
def fork_threads (p : Platform) : List FunctionExec → Checker Q → Except Fault (List ℕ × Checker Q)
  | [], s => .ok ([], s)
  | e :: executables, s => do
    let (th, s) ← equiv_fork p e.func_addr 0 s
    let (threads, s) ← fork_threads p executables s
    .ok (th :: threads, s)

def init_threads (p : Platform) (executables : List FunctionExec) (s : Checker Q) :
    Except Fault (List ℕ × Checker Q) := do
  fork_threads p executables (← reset_ntids s)

def reset_threads (p : Platform) : List ℕ → Checker Q → Except Fault (Checker Q)
  | [], s => .ok s
  | th :: threads, s => do reset_threads p threads (← equiv_refresh p th s)

/-- From the start of an iteration to the call of `equiv_run`. -/
def enter (p : Platform) (init : Mem → Mem) (shared_memory : Finset Addr) (threads : List ℕ)
    (schedule : Schedule) (s : Checker Q) : Except Fault (Checker Q) := do
  let s ← reset_threads p threads { s with mem := init s.mem }
  let s := enable_ctx_switch schedule shared_memory { s with touch_handler := true }
  .ok { s with rw_tracker_enabled := true }

/-- After `equiv_run`: `rw_tracker_disable` and `disable_ctx_switch`. -/
def leave (s : Checker Q) : Checker Q :=
  disable_ctx_switch { rw_tracker_disarm s with rw_tracker_enabled := false }

end

/-- The arguments of `run_interleavings` that its loop uses, the machine it runs on, and
whether the verbosity asks for reports. -/
structure Setup where
  platform : Platform
  init : Mem → Mem
  shared_memory : Finset Addr
  threads : List ℕ
  ncs : ℕ
  report : Bool

namespace Setup
variable {Q : Type} [RunQueue Q ℕ]
open Checker

def num_funcs (u : Setup) : ℕ := u.threads.length

def schedule (u : Setup) (tids instr_nums : List ℕ) : Schedule :=
  ⟨tids, instr_nums, u.ncs, u.num_funcs, u.report⟩

/-- An iteration up to the end of `equiv_run`. -/
def execute (u : Setup) (fuel : ℕ) (schedule : Schedule) (s : Checker Q) :
    Except Fault (Progress (Checker Q)) := do
  equiv_run u.platform fuel (← enter u.platform u.init u.shared_memory u.threads schedule s)

/-- The end of an iteration: the loop variables after a run with the given last context
switch, or none when the loop is done. -/
def next_schedule (u : Setup) (ctx_switch : ℕ) (tids instr_nums : List ℕ) :
    Except Fault (Option (List ℕ × List ℕ)) :=
  if 0 < ctx_switch then .ok (some (tids, Odometer.advance ctx_switch instr_nums))
  else do
    match ← next_tid u.num_funcs tids with
    | none => .ok none
    | some tids => .ok (some (tids, List.replicate u.ncs 1))

/-- The main loop, for at most `fuel` iterations of at most `fuel` instructions each. -/
def loop (u : Setup) : ℕ → Explorer Q → Except Fault (Progress (Explorer Q))
  | 0, x => .ok (.running x)
  | fuel + 1, x => do
    match ← u.execute (fuel + 1) (u.schedule x.tids x.instr_nums) x.checker with
    | .running s => .ok (.running { x with checker := s })
    | .finished s =>
      let status := s.ctx_switch_status
      let runs := x.runs ++ [⟨x.tids, x.instr_nums, status, s.mem⟩]
      match ← u.next_schedule status.ctx_switch x.tids x.instr_nums with
      | none => .ok (.finished
          ⟨List.replicate (u.ncs + 1) 1, List.replicate u.ncs 1, leave s, runs⟩)
      | some (tids, instr_nums) => u.loop fuel ⟨tids, instr_nums, leave s, runs⟩

/-- The thread order and the counts before the first iteration. -/
def start (u : Setup) (s : Checker Q) : Except Fault (Explorer Q) := do
  match ← next_tid u.num_funcs (List.replicate (u.ncs + 1) 1) with
  | none => .ok ⟨List.replicate (u.ncs + 1) 1, List.replicate u.ncs 1, s, []⟩
  | some tids => .ok ⟨tids, List.replicate u.ncs 1, s, []⟩

end Setup

/-- `run_interleavings` up to its loop. -/
def prologue {Q : Type} [RunQueue Q ℕ] (p : Platform) (executables : List FunctionExec)
    (s : Checker Q) : Except Fault (List ℕ × Checker Q) := do
  let (threads, s) ← init_threads p executables (Checker.disable_ctx_switch s)
  .ok (threads, ← reset_threads p threads s)

end Interleaver

end EquivChecker
