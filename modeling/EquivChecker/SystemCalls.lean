import EquivChecker.Lockstep
import EquivChecker.NullReads

/-!
# The system call routines

The routines of the user section end in `swi` and lie one after another: behind the trap
of `sys_equiv_yield` the thread goes on with the first instruction of `sys_equiv_putc`,
unless its caller is just there.
-/

namespace EquivChecker

/-- The instructions of the routines. -/
inductive Insn where
  | mov_imm (rd : Fin 17) (n : Word)
  | mov (rd rm : Fin 17)
  | push_lr
  | pop_lr
  | bx_lr
  | swi
  deriving DecidableEq, Repr

def sys_equiv_exit : List Insn := [.mov_imm 0 0, .swi]

def sys_equiv_yield : List Insn := [.mov_imm 0 3, .swi]

def sys_equiv_putc : List Insn := [.push_lr, .mov 1 0, .mov_imm 0 1, .swi, .pop_lr, .bx_lr]

/-- `.section ".user"`: labels take no space. -/
def user_section : List Insn := sys_equiv_exit ++ sys_equiv_yield ++ sys_equiv_putc

def word_bytes (a : Addr) : Finset Addr := {a, a + 1, a + 2, a + 3}

def load_word (mem : Mem) (a : Addr) : Word := mem (a + 3) ++ mem (a + 2) ++ mem (a + 1) ++ mem a

def store_word (mem : Mem) (a : Addr) (v : Word) : Mem := fun x =>
  if x = a then v.extractLsb' 0 8
  else if x = a + 1 then v.extractLsb' 8 8
  else if x = a + 2 then v.extractLsb' 16 8
  else if x = a + 3 then v.extractLsb' 24 8
  else mem x

def Regs.set (regs : Regs) (i : Fin 17) (v : Word) : Regs := Function.update regs i v

/-- The registers at the next instruction. -/
def Regs.next (regs : Regs) : Regs := Regs.set regs REGS_PC (regs REGS_PC + 4)

/-- One instruction, where `kernel` tells which bytes are kernel memory. -/
def Insn.exec (kernel : Addr → Bool) (i : Insn) (regs : Regs) (mem : Mem) : Instr :=
  match i with
  | .mov_imm rd n => .exec ∅ false (Regs.next (Regs.set regs rd n)) mem
  | .mov rd rm => .exec ∅ false (Regs.next (Regs.set regs rd (regs rm))) mem
  | .push_lr =>
    let sp := regs REGS_SP - 4
    .exec ((word_bytes sp).filter fun a => kernel a) true (Regs.next (Regs.set regs REGS_SP sp))
      (store_word mem sp (regs REGS_LR))
  | .pop_lr =>
    let sp := regs REGS_SP
    .exec ((word_bytes sp).filter fun a => kernel a) false
      (Regs.next (Regs.set (Regs.set regs REGS_LR (load_word mem sp)) REGS_SP (sp + 4))) mem
  | .bx_lr =>
    -- bit 0 of the target selects the Thumb state
    let lr := regs REGS_LR
    let cpsr := if lr.getLsbD 0 then regs REGS_CPSR ||| 0x20 else regs REGS_CPSR
    .exec ∅ false (Regs.set (Regs.set regs REGS_PC (lr &&& 0xfffffffe)) REGS_CPSR cpsr) mem
  | .swi => .swi (Regs.next regs)

/-- The instruction of a section at an address, when the section starts at `text`. -/
def insn_at (code : List Insn) (text pc : Word) : Option Insn :=
  if (pc - text).toNat % 4 = 0 then code[(pc - text).toNat / 4]? else none

/-- The address behind the given code. -/
def behind (text : Word) (code : List Insn) : Word := text + 4 * BitVec.ofNat 32 code.length

def yield_label (text : Word) : Word := behind text sys_equiv_exit

def putc_label (text : Word) : Word := behind text (sys_equiv_exit ++ sys_equiv_yield)

/-- The platform with a section in place. -/
def Platform.linked (p : Platform) (code : List Insn) (text : Word) (kernel : Addr → Bool) : Platform :=
  { p with
    sys_equiv_exit := text
    fetch := fun regs mem =>
      match insn_at code text (regs REGS_PC) with
      | some i => i.exec kernel regs mem
      | none => p.fetch regs mem }

namespace Checker

variable {p : Platform} {code : List Insn} {text : Word} {kernel : Addr → Bool} {th : ℕ} {no : Word}
  {s t u v : Checker (List ℕ)}

/-- The running thread goes on, without a switch, up to its next system call. -/
inductive Turn (p : Platform) : Checker (List ℕ) → Word → Checker (List ℕ) → Prop where
  | call {s v t : Checker (List ℕ)} {regs : Regs} {no : Word} (hprefetch : prefetch s = .ok v)
      (hcur : v.cur_thread = s.cur_thread) (hswi : p.fetch v.regs v.mem = .swi regs)
      (hno : regs 0 = no) (htrap : equiv_syscall_handler { v with regs } = .ok (.running t)) :
      Turn p s no t
  | exec {s v v' t : Checker (List ℕ)} {touched : Finset Addr} {w : Bool} {regs : Regs} {mem : Mem}
      {no : Word} (hprefetch : prefetch s = .ok v) (hcur : v.cur_thread = s.cur_thread)
      (hexec : p.fetch v.regs v.mem = .exec touched w regs mem) (haccess : access touched w v = .ok v')
      (hnext : Turn p { v' with regs, mem } no t) : Turn p s no t

/-- The running thread goes on with ordinary instructions, without a switch. -/
inductive Plain (p : Platform) : Checker (List ℕ) → Checker (List ℕ) → Prop where
  | refl {s : Checker (List ℕ)} : Plain p s s
  | exec {s v v' t : Checker (List ℕ)} {touched : Finset Addr} {w : Bool} {regs : Regs} {mem : Mem}
      (hprefetch : prefetch s = .ok v) (hcur : v.cur_thread = s.cur_thread)
      (hexec : p.fetch v.regs v.mem = .exec touched w regs mem) (haccess : access touched w v = .ok v')
      (hnext : Plain p { v' with regs, mem } t) : Plain p s t

/-- The first state from which on the thread runs again. -/
inductive Resumed (p : Platform) (th : ℕ) : Checker (List ℕ) → Checker (List ℕ) → Prop where
  | now {s : Checker (List ℕ)} (hcur : s.cur_thread = some th) : Resumed p th s s
  | later {s t u : Checker (List ℕ)} (hcur : s.cur_thread ≠ some th)
      (hstep : step p s = .ok (.running t)) (h : Resumed p th t u) : Resumed p th s u

/-- The thread is about to execute the first instruction of `sys_equiv_yield`; the prefetch
abort of the call has left no count pending. -/
structure AtYield (text : Word) (th : ℕ) (s : Checker (List ℕ)) : Prop where
  cur_thread : s.cur_thread = some th
  pc : s.regs REGS_PC = yield_label text
  counted : s.ctx_switch_status.do_instr_count = false

/-- Where `bx` goes: bit 0 only selects the Thumb state. -/
def return_address (lr : Word) : Word := lr &&& 0xfffffffe

/-- What a call is to do: trap once, for `EQUIV_YIELD` and without a character, queue the thread
behind all others, and when it is resumed come back to the caller, without another trap and with
the stack pointer of the call. -/
def YieldsOnce (p : Platform) (th : ℕ) (s : Checker (List ℕ)) : Prop :=
  ∃ t, Turn p s EQUIV_YIELD t ∧ t.uart = s.uart ∧
    t.cur_thread.toList ++ t.equiv_runq = s.equiv_runq ++ [th] ∧
    ∀ u, Resumed p th t u → ∃ v, Plain p u v ∧ v.regs REGS_PC = return_address (s.regs REGS_LR) ∧
      v.regs REGS_SP = s.regs REGS_SP ∧ v.uart = u.uart

/-- The thread gets to run again after its system call. -/
def Resumes (p : Platform) (th : ℕ) (s : Checker (List ℕ)) : Prop :=
  ∃ t u, Turn p s EQUIV_YIELD t ∧ Resumed p th t u

/-- The stack pointer that `check_sp` accepts. -/
def SpFits (s : Checker (List ℕ)) (th : ℕ) (sp : Word) : Prop :=
  (s.threads th).stack_start ≤ sp ∧ sp ≤ (s.threads th).stack_end

instance (s : Checker (List ℕ)) (th : ℕ) (sp : Word) : Decidable (SpFits s th sp) :=
  inferInstanceAs (Decidable (_ ∧ _))

theorem insn_at_eq (code : List Insn) (text : Word) {k : ℕ} (hk : k < 2 ^ 30) :
    insn_at code text (text + 4 * BitVec.ofNat 32 k) = code[k]? := by
  have hoffset : (text + 4 * BitVec.ofNat 32 k - text).toNat = 4 * k := by
    rw [BitVec.add_comm, BitVec.add_sub_cancel, BitVec.toNat_mul, BitVec.toNat_ofNat]
    change 4 * (k % 2 ^ 32) % 2 ^ 32 = 4 * k
    omega
  rw [insn_at, hoffset, if_pos (Nat.mul_mod_right 4 k), Nat.mul_div_cancel_left k (by decide)]

theorem turn_call_iff {regs : Regs} (hprefetch : prefetch s = .ok v) (hcur : v.cur_thread = s.cur_thread)
    (hswi : p.fetch v.regs v.mem = .swi regs) :
    Turn p s no t ↔ regs 0 = no ∧ Trapped { v with regs } (.running t) := by
  constructor
  · intro h
    cases h with
    | call hprefetch' _ hswi' hno htrap =>
      cases hprefetch.symm.trans hprefetch'
      cases hswi.symm.trans hswi'
      exact ⟨hno, equiv_syscall_handler_iff.mp htrap⟩
    | exec hprefetch' _ hexec _ _ =>
      cases hprefetch.symm.trans hprefetch'
      cases hswi.symm.trans hexec
  · rintro ⟨hno, htrap⟩
    exact .call hprefetch hcur hswi hno (equiv_syscall_handler_iff.mpr htrap)

theorem turn_exec_iff {v' : Checker (List ℕ)} {touched : Finset Addr} {w : Bool} {regs : Regs} {mem : Mem}
    (hprefetch : prefetch s = .ok v) (hcur : v.cur_thread = s.cur_thread)
    (hexec : p.fetch v.regs v.mem = .exec touched w regs mem) (haccess : access touched w v = .ok v') :
    Turn p s no t ↔ Turn p { v' with regs, mem } no t := by
  constructor
  · intro h
    cases h with
    | call hprefetch' _ hswi _ _ =>
      cases hprefetch.symm.trans hprefetch'
      cases hexec.symm.trans hswi
    | exec hprefetch' _ hexec' haccess' hnext =>
      cases hprefetch.symm.trans hprefetch'
      cases hexec.symm.trans hexec'
      cases haccess.symm.trans haccess'
      exact hnext
  · exact .exec hprefetch hcur hexec haccess

theorem plain_exec_iff {v' : Checker (List ℕ)} {touched : Finset Addr} {w : Bool} {regs : Regs} {mem : Mem}
    (hprefetch : prefetch s = .ok v) (hcur : v.cur_thread = s.cur_thread)
    (hexec : p.fetch v.regs v.mem = .exec touched w regs mem) (haccess : access touched w v = .ok v') :
    Plain p s t ↔ t = s ∨ Plain p { v' with regs, mem } t := by
  constructor
  · intro h
    cases h with
    | refl => exact .inl rfl
    | exec hprefetch' _ hexec' haccess' hnext =>
      cases hprefetch.symm.trans hprefetch'
      cases hexec.symm.trans hexec'
      cases haccess.symm.trans haccess'
      exact .inr hnext
  · rintro (rfl | h)
    · exact .refl
    · exact .exec hprefetch hcur hexec haccess h

/-- The running thread was not interfered with: only its saved registers and the tracker changed. -/
structure Same (th : ℕ) (s v : Checker (List ℕ)) : Prop where
  cur_thread : v.cur_thread = s.cur_thread
  regs : v.regs = s.regs
  mem : v.mem = s.mem
  uart : v.uart = s.uart
  equiv_runq : v.equiv_runq = s.equiv_runq
  schedule : v.schedule = s.schedule
  status : v.ctx_switch_status = s.ctx_switch_status
  frame : (v.threads th).frame = (s.threads th).frame

theorem Same.with_regs (h : Same th s v) (regs : Regs) : Same th { s with regs } { v with regs } :=
  ⟨h.cur_thread, rfl, h.mem, h.uart, h.equiv_runq, h.schedule, h.status, h.frame⟩

theorem Same.refl (s : Checker (List ℕ)) : Same th s s := ⟨rfl, rfl, rfl, rfl, rfl, rfl, rfl, rfl⟩

theorem Same.trans (h : Same th s t) (h' : Same th t v) : Same th s v :=
  ⟨h'.cur_thread.trans h.cur_thread, h'.regs.trans h.regs, h'.mem.trans h.mem, h'.uart.trans h.uart,
    h'.equiv_runq.trans h.equiv_runq, h'.schedule.trans h.schedule, h'.status.trans h.status,
    h'.frame.trans h.frame⟩

/-- With no count pending the prefetch abort saves the registers and returns. -/
theorem prefetch_calm (hcur : s.cur_thread = some th)
    (hcounted : s.ctx_switch_status.do_instr_count = false) : ∃ v, prefetch s = .ok v ∧ Same th s v := by
  unfold prefetch
  split
  · exact ⟨s, rfl, .refl s⟩
  · refine ⟨_, bind_ok_iff.mpr ⟨_, equiv_hash_handler_iff.mpr (.unmarked hcur hcounted), rfl⟩, ?_⟩
    have hframe := (keeps_saved hcur).frame th
    rw [saved_eq] at *
    exact ⟨rfl, rfl, rfl, rfl, rfl, rfl, rfl, hframe⟩

/-- Without a schedule a data abort feeds the tracker and returns. -/
theorem access_calm (th : ℕ) (touched : Finset Addr) (w : Bool) (hquiet : touched = ∅ ∨ s.schedule = none) :
    ∃ v, access touched w s = .ok v ∧ Same th s v ∧ v.threads = s.threads := by
  unfold access
  split
  · rename_i htouched
    have hnone := hquiet.resolve_left htouched.2
    have htouch : memory_touch_handler touched s = .ok s := by
      simp only [memory_touch_handler, ctx_switch_handler, hnone, ite_self]
    exact ⟨_, bind_ok_iff.mpr ⟨s, htouch, rfl⟩, ⟨rfl, rfl, rfl, rfl, rfl, rfl, rfl, rfl⟩, rfl⟩
  · exact ⟨s, rfl, .refl s, rfl⟩

/-- A thread waits with its saved registers while others run to completion. -/
structure Parked (th : ℕ) (waiting : EqTh) (s : Checker (List ℕ)) : Prop where
  schedule : s.schedule = none
  counted : s.ctx_switch_status.do_instr_count = false
  thread : s.threads th = waiting
  regs : s.cur_thread = some th → s.regs = waiting.regs

variable {waiting : EqTh}

theorem Parked.prefetch (h : Parked th waiting s) (hcur : s.cur_thread ≠ some th)
    (hv : prefetch s = .ok v) : Parked th waiting v ∧ v.cur_thread = s.cur_thread := by
  unfold Checker.prefetch at hv
  split at hv
  · cases hv
    exact ⟨h, rfl⟩
  · obtain ⟨u, hu, hv⟩ := bind_ok_iff.mp hv
    cases hv
    cases equiv_hash_handler_iff.mp hu with
    | @unmarked x hx _ =>
      have hne : th ≠ x := by
        rintro rfl
        exact hcur hx
      rw [saved_eq]
      exact ⟨⟨h.schedule, h.counted, (Function.update_of_ne hne _ _).trans h.thread,
        fun hth => absurd hth hcur⟩, rfl⟩
    | counted _ hdo _ _ _ => exact absurd hdo (by rw [h.counted]; exact Bool.false_ne_true)
    | switched _ hdo _ _ _ _ _ => exact absurd hdo (by rw [h.counted]; exact Bool.false_ne_true)

/-- Some thread is resumed with what it was saved with. -/
theorem Parked.resume (h : Parked th waiting s) {next : ℕ} (hthreads : t.threads = s.threads)
    (hschedule : t.schedule = none) (hcounted : t.ctx_switch_status.do_instr_count = false)
    (hcur : t.cur_thread = some next) : Parked th waiting (mismatch_run next t) := by
  have hthread : t.threads th = waiting := by rw [hthreads, h.thread]
  refine ⟨hschedule, hcounted, hthread, fun hth => ?_⟩
  cases hcur.symm.trans hth
  exact congrArg EqTh.regs hthread

theorem Parked.save (h : Parked th waiting s) {x : ℕ} (hne : th ≠ x) (hcur : s.cur_thread ≠ some th) :
    Parked th waiting (save x s) :=
  ⟨h.schedule, h.counted, (Function.update_of_ne hne _ _).trans h.thread, fun hth => absurd hth hcur⟩

theorem Parked.step (h : Parked th waiting s) (hcur : s.cur_thread ≠ some th)
    (hstep : step p s = .ok (.running t)) : Parked th waiting t := by
  obtain ⟨v, hv, hstep⟩ := bind_ok_iff.mp hstep
  obtain ⟨hpv, hcurv⟩ := h.prefetch hcur hv
  rw [← hcurv] at hcur
  split at hstep
  · rename_i touched w regs mem _
    obtain ⟨v', hv', hsame, hthreads⟩ := access_calm th touched w (.inr hpv.schedule)
    rw [hv'] at hstep
    cases hstep
    exact ⟨hsame.schedule.trans hpv.schedule, by rw [hsame.status]; exact hpv.counted,
      by rw [hthreads]; exact hpv.thread, fun hth => absurd (hsame.cur_thread.symm.trans hth) hcur⟩
  · rename_i regs _
    have hp : Parked th waiting { v with regs } :=
      ⟨hpv.schedule, hpv.counted, hpv.thread, fun hth => absurd hth hcur⟩
    have hsaved : ∀ x, v.cur_thread = some x → Parked th waiting (Checker.save x { v with regs }) := by
      intro x hx
      refine hp.save ?_ hcur
      rintro rfl
      exact hcur hx
    cases equiv_syscall_handler_iff.mp hstep with
    | putc_back hx _ _ _ _ => exact (hsaved _ hx).resume rfl hpv.schedule hpv.counted hx
    | putc_next hx _ _ _ _ => exact (hsaved _ hx).resume rfl hpv.schedule hpv.counted rfl
    | yield hx _ _ _ => exact (hsaved _ hx).resume rfl rfl hpv.counted rfl
    | exit_next hx _ _ _ => exact (hsaved _ hx).resume rfl rfl hpv.counted rfl

/-- A waiting thread runs again with its saved registers, and nothing else is left to switch. -/
theorem Parked.resumed (h : Parked th waiting s) (hu : Resumed p th s u) :
    Parked th waiting u ∧ u.cur_thread = some th := by
  induction hu with
  | now hcur => exact ⟨h, hcur⟩
  | later hcur hstep _ ih => exact ih (h.step hcur hstep)

@[simp] theorem linked_fetch (regs : Regs) (mem : Mem) : (p.linked code text kernel).fetch regs mem =
    match insn_at code text (regs REGS_PC) with
    | some i => i.exec kernel regs mem
    | none => p.fetch regs mem := rfl

/-- The running thread is at instruction `k` of the section. -/
structure AtInsn (text : Word) (th k : ℕ) (s : Checker (List ℕ)) : Prop where
  cur_thread : s.cur_thread = some th
  counted : s.ctx_switch_status.do_instr_count = false
  pc : s.regs REGS_PC = text + 4 * BitVec.ofNat 32 k

variable {k : ℕ}

/-- A routine instruction that does not trap. -/
theorem turn_insn (p : Platform) (code : List Insn) (kernel : Addr → Bool) {i : Insn} {touched : Finset Addr}
    {w : Bool} {regs : Regs} {mem : Mem} (h : AtInsn text th k s) (hk : k < 2 ^ 30)
    (hinsn : code[k]? = some i)
    (hexec : i.exec kernel s.regs s.mem = .exec touched w regs mem)
    (hquiet : touched = ∅ ∨ s.schedule = none) :
    ∃ v, Same th { s with regs, mem } v ∧
      (∀ no t, Turn (p.linked code text kernel) s no t ↔ Turn (p.linked code text kernel) v no t) ∧
      ∀ t, Plain (p.linked code text kernel) s t ↔ t = s ∨ Plain (p.linked code text kernel) v t := by
  obtain ⟨v, hv, hsame⟩ := prefetch_calm h.cur_thread h.counted
  rw [← hsame.schedule] at hquiet
  obtain ⟨v', hv', hsame', -⟩ := access_calm th touched w hquiet
  have hfetch : (p.linked code text kernel).fetch v.regs v.mem = .exec touched w regs mem := by
    rw [linked_fetch, hsame.regs, hsame.mem, h.pc, insn_at_eq code text hk, hinsn]
    exact hexec
  have hboth := hsame.trans hsame'
  exact ⟨{ v' with regs, mem }, ⟨hboth.cur_thread, rfl, rfl, hboth.uart, hboth.equiv_runq, hboth.schedule,
    hboth.status, hboth.frame⟩, fun no t => turn_exec_iff hv hsame.cur_thread hfetch hv',
    fun t => plain_exec_iff hv hsame.cur_thread hfetch hv'⟩

/-- The trap of a routine. -/
theorem turn_swi (p : Platform) (code : List Insn) (kernel : Addr → Bool) (h : AtInsn text th k s)
    (hk : k < 2 ^ 30) (hinsn : code[k]? = some .swi) :
    ∃ v, Same th { s with regs := Regs.next s.regs } v ∧
      (∀ no t, Turn (p.linked code text kernel) s no t ↔ s.regs 0 = no ∧ Trapped v (.running t)) ∧
      ∀ t, Plain (p.linked code text kernel) s t → t = s := by
  obtain ⟨v, hv, hsame⟩ := prefetch_calm h.cur_thread h.counted
  have hfetch : (p.linked code text kernel).fetch v.regs v.mem = .swi (Regs.next s.regs) := by
    rw [linked_fetch, hsame.regs, hsame.mem, h.pc, insn_at_eq code text hk, hinsn]
    rfl
  refine ⟨{ v with regs := Regs.next s.regs }, ⟨hsame.cur_thread, rfl, hsame.mem, hsame.uart,
    hsame.equiv_runq, hsame.schedule, hsame.status, hsame.frame⟩,
    fun no t => turn_call_iff hv hsame.cur_thread hfetch, fun t ht => ?_⟩
  cases ht with
  | refl => rfl
  | exec hprefetch _ hexec =>
    cases hv.symm.trans hprefetch
    cases hfetch.symm.trans hexec

/-- The next instruction of the section follows. -/
theorem AtInsn.next {mem : Mem} {regs : Regs} (h : AtInsn text th k s)
    (hsame : Same th { s with regs := Regs.next regs, mem := mem } v)
    (hpc : regs REGS_PC = s.regs REGS_PC) : AtInsn text th (k + 1) v where
  cur_thread := hsame.cur_thread.trans h.cur_thread
  counted := by
    rw [hsame.status]
    exact h.counted
  pc := by
    rw [hsame.regs]
    change regs REGS_PC + 4 = _
    rw [hpc, h.pc, BitVec.ofNat_add, BitVec.mul_add, BitVec.add_assoc]
    rfl

theorem next_of_ne (regs : Regs) {i : Fin 17} (hi : i ≠ REGS_PC) : Regs.next regs i = regs i :=
  Function.update_of_ne hi _ _

theorem set_of_ne (regs : Regs) {i j : Fin 17} (v : Word) (hj : j ≠ i) : Regs.set regs i v j = regs j :=
  Function.update_of_ne hj _ _

/-- The registers behind the trap of `sys_equiv_yield`. -/
def yielded (regs : Regs) : Regs := Regs.next (Regs.next (Regs.set regs 0 EQUIV_YIELD))

theorem AtYield.at_insn (h : AtYield text th s) : AtInsn text th 2 s := ⟨h.cur_thread, h.counted, h.pc⟩

/-- `sys_equiv_yield` is where it is in the section. -/
structure HasYield (code : List Insn) : Prop where
  mov : code[2]? = some (.mov_imm 0 3)
  swi : code[3]? = some .swi

theorem user_section_has_yield : HasYield user_section := ⟨rfl, rfl⟩

/-- The two instructions of `sys_equiv_yield`. -/
theorem yield_turn_iff (p : Platform) (kernel : Addr → Bool) (hcode : HasYield code) (h : AtYield text th s) :
    ∃ v, AtInsn text th 4 v ∧ Same th { s with regs := yielded s.regs } v ∧
      ∀ no t, Turn (p.linked code text kernel) s no t ↔ EQUIV_YIELD = no ∧ Trapped v (.running t) := by
  obtain ⟨s₁, hsame₁, hmov, -⟩ := turn_insn p code kernel h.at_insn (by decide) hcode.mov rfl (.inl rfl)
  have hready := h.at_insn.next hsame₁ rfl
  obtain ⟨v, hsame, hswi, -⟩ := turn_swi p code kernel hready (by decide) hcode.swi
  refine ⟨v, hready.next hsame rfl, ?_, fun no t => ?_⟩
  · rw [hsame₁.regs] at hsame
    exact (hsame₁.with_regs _).trans hsame
  · rw [hmov, hswi, hsame₁.regs]
    rfl

theorem check_sp_ok_iff {t : EqTh} :
    check_sp t = .ok () ↔ t.stack_start ≤ t.regs REGS_SP ∧ t.regs REGS_SP ≤ t.stack_end := by
  unfold check_sp
  split
  · rename_i hlt
    simp only [reduceCtorEq, false_iff, not_and, BitVec.not_le]
    intro hle
    exact absurd hlt (BitVec.not_lt.mpr hle)
  · split
    · rename_i hlt
      simp only [reduceCtorEq, false_iff, not_and, BitVec.not_le]
      exact fun _ => hlt
    · rename_i hstart hend
      simp only [true_iff]
      exact ⟨BitVec.not_lt.mp hstart, BitVec.not_lt.mp hend⟩

theorem save_thread (th : ℕ) (v : Checker (List ℕ)) :
    (save th v).threads th = { v.threads th with regs := v.regs } :=
  Function.update_self _ _ _

theorem spFits_congr {sp : Word} (hframe : (v.threads th).frame = (s.threads th).frame) :
    SpFits v th sp ↔ SpFits s th sp := by
  have hstart : (v.threads th).stack_start = (s.threads th).stack_start := (congrArg EqTh.stack_start hframe :)
  have hend : (v.threads th).stack_end = (s.threads th).stack_end := (congrArg EqTh.stack_end hframe :)
  simp only [SpFits, hstart, hend]

theorem save_check_sp_iff (hframe : (v.threads th).frame = (s.threads th).frame) :
    check_sp ((save th v).threads th) = .ok () ↔ SpFits s th (v.regs REGS_SP) := by
  rw [check_sp_ok_iff, save_thread]
  exact spFits_congr hframe

/-- What `EQUIV_YIELD` does: the thread is saved and goes behind the queued ones. -/
theorem trapped_yield_iff (hcur : v.cur_thread = some th) (hno : v.regs 0 = EQUIV_YIELD) :
    Trapped v (.running t) ↔ check_sp ((save th v).threads th) = .ok () ∧
      ∃ next q, v.equiv_runq ++ [th] = next :: q ∧ t = mismatch_run next { save th v with
        schedule := none, ctx_switch_status := { v.ctx_switch_status with yielded := true }
        equiv_runq := q, cur_thread := some next } := by
  constructor
  · intro h
    cases h with
    | putc_back _ _ hno' _ _ => exact absurd (hno.symm.trans hno') (by decide)
    | putc_next _ _ hno' _ _ => exact absurd (hno.symm.trans hno') (by decide)
    | yield hx hsp _ hq =>
      cases hcur.symm.trans hx
      exact ⟨hsp, _, _, hq, rfl⟩
    | exit_next _ _ hno' _ => exact absurd (hno.symm.trans hno') (by decide)
  · rintro ⟨hsp, next, q, hq, rfl⟩
    exact .yield hcur hsp hno hq

theorem yielded_of_ne (regs : Regs) (i : Fin 17) (hi : i ≠ REGS_PC) (h0 : i ≠ 0) :
    yielded regs i = regs i := by
  rw [yielded, next_of_ne _ hi, next_of_ne _ hi, set_of_ne _ _ h0]

/-- The state behind the trap of `sys_equiv_yield`. -/
structure Yielded (text : Word) (th : ℕ) (s t : Checker (List ℕ)) : Prop where
  uart : t.uart = s.uart
  current : ∃ next, t.cur_thread = some next
  rotated : t.cur_thread.toList ++ t.equiv_runq = s.equiv_runq ++ [th]
  regs : (t.threads th).regs = yielded s.regs
  pc : (t.threads th).regs REGS_PC = putc_label text
  frame : (t.threads th).frame = (s.threads th).frame
  parked : Parked th (t.threads th) t

theorem yield_turn (hcode : HasYield code) (h : AtYield text th s)
    (hturn : Turn (p.linked code text kernel) s no t) :
    SpFits s th (s.regs REGS_SP) ∧ Yielded text th s t := by
  obtain ⟨v, hready, hsame, hiff⟩ := yield_turn_iff p kernel hcode h
  have hno : v.regs 0 = EQUIV_YIELD := by rw [hsame.regs]; rfl
  have hcur := hsame.cur_thread.trans h.cur_thread
  obtain ⟨hsp, next, q, hq, rfl⟩ := (trapped_yield_iff hcur hno).mp ((hiff _ _).mp hturn).2
  have hfits := (save_check_sp_iff hsame.frame).mp hsp
  rw [hsame.regs] at hfits
  change SpFits s th (yielded s.regs REGS_SP) at hfits
  rw [yielded_of_ne _ REGS_SP (by decide) (by decide)] at hfits
  have hthread := save_thread th v
  refine ⟨hfits, hsame.uart, ⟨next, rfl⟩, ?_, ?_, ?_, ?_, ?_⟩
  · rw [hsame.equiv_runq] at hq
    exact hq.symm
  · exact (congrArg EqTh.regs hthread).trans hsame.regs
  · exact (congrFun (congrArg EqTh.regs hthread) REGS_PC).trans hready.pc
  · exact (congrArg EqTh.frame hthread).trans hsame.frame
  · have hcounted : v.ctx_switch_status.do_instr_count = false := by
      rw [hsame.status]
      exact h.counted
    refine ⟨rfl, hcounted, rfl, fun hth => ?_⟩
    cases hth
    rfl

theorem yield_turn_unique (hcode : HasYield code) (h : AtYield text th s)
    (hturn : Turn (p.linked code text kernel) s EQUIV_YIELD t)
    (hturn' : Turn (p.linked code text kernel) s EQUIV_YIELD u) : t = u := by
  obtain ⟨v, -, hsame, hiff⟩ := yield_turn_iff p kernel hcode h
  have hno : v.regs 0 = EQUIV_YIELD := by rw [hsame.regs]; rfl
  have hcur := hsame.cur_thread.trans h.cur_thread
  obtain ⟨-, next, q, hq, rfl⟩ := (trapped_yield_iff hcur hno).mp ((hiff _ _).mp hturn).2
  obtain ⟨-, next', q', hq', rfl⟩ := (trapped_yield_iff hcur hno).mp ((hiff _ _).mp hturn').2
  cases hq.symm.trans hq'
  rfl

theorem exists_yield_turn (p : Platform) (kernel : Addr → Bool) (hcode : HasYield code)
    (h : AtYield text th s) (hfits : SpFits s th (s.regs REGS_SP)) :
    ∃ t, Turn (p.linked code text kernel) s EQUIV_YIELD t := by
  obtain ⟨v, -, hsame, hiff⟩ := yield_turn_iff p kernel hcode h
  have hno : v.regs 0 = EQUIV_YIELD := by rw [hsame.regs]; rfl
  obtain ⟨next, q, hq⟩ := List.exists_cons_of_ne_nil
    (List.append_ne_nil_of_right_ne_nil v.equiv_runq (List.cons_ne_nil th []))
  have hsp : check_sp ((save th v).threads th) = .ok () := by
    rw [save_check_sp_iff hsame.frame, hsame.regs]
    rw [← yielded_of_ne s.regs REGS_SP (by decide) (by decide)] at hfits
    exact hfits
  exact ⟨_, (hiff _ _).mpr
    ⟨rfl, (trapped_yield_iff (hsame.cur_thread.trans h.cur_thread) hno).mpr ⟨hsp, next, q, hq, rfl⟩⟩⟩

/-- What `EQUIV_PUTC` does when no schedule is set. -/
theorem exists_trapped_putc (hcur : v.cur_thread = some th) (hno : v.regs 0 = EQUIV_PUTC)
    (hschedule : v.schedule = none) (hsp : check_sp ((save th v).threads th) = .ok ()) :
    ∃ t, Trapped v (.running t) ∧ t.uart = v.uart ++ [v.regs 1] ∧
      t.cur_thread.toList ++ t.equiv_runq = v.equiv_runq ++ [th] ∧ (t.threads th).regs = v.regs := by
  have hdone : v.Done := fun σ hσ => by cases hschedule.symm.trans hσ
  have hregs := congrArg EqTh.regs (save_thread th v)
  cases hq : v.equiv_runq with
  | nil =>
    refine ⟨_, .putc_back hcur hsp hno hdone hq, rfl, ?_, hregs⟩
    simp [mismatch_run, save, setThread, hcur, hq]
  | cons next q => exact ⟨_, .putc_next hcur hsp hno hdone hq, rfl, rfl, hregs⟩

/-- The registers at the trap of `sys_equiv_putc`. -/
def printing (regs : Regs) : Regs :=
  let pushed := Regs.next (Regs.set regs REGS_SP (regs REGS_SP - 4))
  Regs.next (Regs.set (Regs.next (Regs.set pushed 1 (pushed 0))) 0 EQUIV_PUTC)

/-- `sys_equiv_putc` up to its trap. From the push on the stack pointer is 4 lower. -/
theorem putc_insns (p : Platform) (kernel : Addr → Bool) (h : AtInsn text th 4 s)
    (hschedule : s.schedule = none) :
    ∃ mem v, Same th { s with regs := Regs.next (printing s.regs), mem } v ∧
      (∀ no t, Turn (p.linked user_section text kernel) s no t ↔ EQUIV_PUTC = no ∧ Trapped v (.running t)) ∧
      ∀ t, Plain (p.linked user_section text kernel) s t → t = s ∨ t.regs REGS_SP = s.regs REGS_SP - 4 := by
  obtain ⟨s₁, hsame₁, hpush, hpush'⟩ := turn_insn p user_section kernel h (by decide) rfl rfl
    (.inr hschedule)
  have h₁ := h.next hsame₁ rfl
  obtain ⟨s₂, hsame₂, hmov, hmov'⟩ := turn_insn p user_section kernel h₁ (by decide) rfl rfl (.inl rfl)
  have h₂ := h₁.next hsame₂ rfl
  obtain ⟨s₃, hsame₃, hno, hno'⟩ := turn_insn p user_section kernel h₂ (by decide) rfl rfl (.inl rfl)
  have h₃ := h₂.next hsame₃ rfl
  obtain ⟨v, hsame, hswi, hswi'⟩ := turn_swi p user_section kernel h₃ (by decide) rfl
  have hregs : s₃.regs = printing s.regs := by
    rw [hsame₃.regs, hsame₂.regs, hsame₁.regs]
    rfl
  have hmoved := (hsame₁.with_regs _).trans hsame₂
  have hnumbered := (hmoved.with_regs _).trans hsame₃
  have hall := (hnumbered.with_regs _).trans hsame
  rw [hregs] at hall hswi
  refine ⟨_, v, hall, fun no t => ?_, fun t hplain => ?_⟩
  · rw [hpush, hmov, hno, hswi]
    rfl
  · have hsp₁ : s₁.regs REGS_SP = s.regs REGS_SP - 4 := by
      rw [hsame₁.regs]
      rfl
    have hsp₂ : s₂.regs REGS_SP = s.regs REGS_SP - 4 := by
      rw [hsame₂.regs, ← hsp₁]
      rfl
    have hsp₃ : s₃.regs REGS_SP = s.regs REGS_SP - 4 := by
      rw [hregs]
      rfl
    rcases (hpush' t).mp hplain with rfl | hplain
    · exact .inl rfl
    · rcases (hmov' t).mp hplain with rfl | hplain
      · exact .inr hsp₁
      · rcases (hno' t).mp hplain with rfl | hplain
        · exact .inr hsp₂
        · exact .inr (hswi' t hplain ▸ hsp₃)

/-- The thread runs through `sys_equiv_putc` up to its trap. -/
theorem putc_turn (p : Platform) (kernel : Addr → Bool) (h : AtInsn text th 4 s)
    (hschedule : s.schedule = none) (hroom : SpFits s th (s.regs REGS_SP - 4)) :
    ∃ t, Turn (p.linked user_section text kernel) s EQUIV_PUTC t ∧ t.uart = s.uart ++ [s.regs 0] ∧
      t.cur_thread.toList ++ t.equiv_runq = s.equiv_runq ++ [th] ∧
      (t.threads th).regs = Regs.next (printing s.regs) := by
  obtain ⟨mem, v, hsame, hturn, -⟩ := putc_insns p kernel h hschedule
  have hsp : check_sp ((save th v).threads th) = .ok () := by
    rw [save_check_sp_iff hsame.frame, hsame.regs]
    exact hroom
  have hno : v.regs 0 = EQUIV_PUTC := by
    rw [hsame.regs]
    rfl
  have hchar : v.regs 1 = s.regs 0 := by
    rw [hsame.regs]
    rfl
  obtain ⟨t, ht, huart, hrotated, hsaved⟩ := exists_trapped_putc (hsame.cur_thread.trans h.cur_thread)
    hno (hsame.schedule.trans hschedule) hsp
  refine ⟨t, (hturn EQUIV_PUTC t).mpr ⟨rfl, ht⟩, ?_, ?_, hsaved.trans hsame.regs⟩
  · rw [huart, hchar, hsame.uart]
  · rw [hrotated, hsame.equiv_runq]

/-- A resumed thread is where its system call has left it. -/
theorem Yielded.resumed (ht : Yielded text th s t) (hu : Resumed p th t u) :
    AtInsn text th 4 u ∧ u.schedule = none ∧ u.regs = yielded s.regs := by
  obtain ⟨hparked, hcur⟩ := ht.parked.resumed hu
  have hregs := hparked.regs hcur
  exact ⟨⟨hcur, hparked.counted, by rw [hregs]; exact ht.pc⟩, hparked.schedule, hregs.trans ht.regs⟩

/-- With no other thread queued the thread is resumed at once. -/
theorem resumes_alone (hcode : HasYield code) (h : AtYield text th s) (hfits : SpFits s th (s.regs REGS_SP))
    (hq : s.equiv_runq = []) : Resumes (p.linked code text kernel) th s := by
  obtain ⟨t, hturn⟩ := exists_yield_turn p kernel hcode h hfits
  obtain ⟨-, ht⟩ := yield_turn hcode h hturn
  obtain ⟨next, hnext⟩ := ht.current
  have hrotated := ht.rotated
  rw [hnext, hq] at hrotated
  simp only [Option.toList_some, List.cons_append, List.nil_append, List.cons.injEq] at hrotated
  exact ⟨t, t, hturn, .now (hrotated.1 ▸ hnext)⟩

theorem YieldsOnce.back (h : AtYield text th s)
    (hyield : YieldsOnce (p.linked user_section text kernel) th s) : SpFits s th (s.regs REGS_SP) ∧
      (return_address (s.regs REGS_LR) = putc_label text ∨
        ¬Resumes (p.linked user_section text kernel) th s) := by
  obtain ⟨t, hturn, -, -, hback⟩ := hyield
  obtain ⟨hfits, ht⟩ := yield_turn user_section_has_yield h hturn
  refine ⟨hfits, or_iff_not_imp_right.mpr fun hresumes => ?_⟩
  obtain ⟨t', u, hturn', hu⟩ := not_not.mp hresumes
  obtain rfl := yield_turn_unique user_section_has_yield h hturn hturn'
  obtain ⟨hready, hschedule, hregs⟩ := ht.resumed hu
  obtain ⟨v, hplain, hpc, hsp, -⟩ := hback u hu
  have hkept : u.regs REGS_SP = s.regs REGS_SP := by
    rw [hregs]
    exact yielded_of_ne _ REGS_SP (by decide) (by decide)
  obtain ⟨-, -, -, -, hpushed⟩ := putc_insns p kernel hready hschedule
  rcases hpushed v hplain with rfl | hmoved
  · rw [← hpc, hready.pc]
    rfl
  · rw [hsp, hkept] at hmoved
    exact absurd hmoved (by bv_omega)

/-- A call does what it is to do exactly when its caller is right behind the trap, or when the thread
does not get to run again. -/
theorem yields_once_iff (p : Platform) (text : Word) (kernel : Addr → Bool) (th : ℕ)
    (s : Checker (List ℕ)) (h : AtYield text th s) :
    YieldsOnce (p.linked user_section text kernel) th s ↔ SpFits s th (s.regs REGS_SP) ∧
      (return_address (s.regs REGS_LR) = putc_label text ∨
        ¬Resumes (p.linked user_section text kernel) th s) := by
  constructor
  · exact YieldsOnce.back h
  · rintro ⟨hfits, hback⟩
    obtain ⟨t, hturn⟩ := exists_yield_turn p kernel user_section_has_yield h hfits
    obtain ⟨-, ht⟩ := yield_turn user_section_has_yield h hturn
    refine ⟨t, hturn, ht.uart, ht.rotated, fun u hu => ?_⟩
    obtain ⟨hready, -, hregs⟩ := ht.resumed hu
    refine ⟨u, .refl, ?_, ?_, rfl⟩
    · rw [hback.resolve_right (not_not_intro ⟨t, u, hturn, hu⟩), hready.pc]
      rfl
    · rw [hregs]
      exact yielded_of_ne _ REGS_SP (by decide) (by decide)

/-- The only thread calls `sys_equiv_yield`, with the given return address. -/
def calling (lr : Word) : Checker (List ℕ) :=
  { single with
    equiv_runq := [], cur_thread := some 0
    regs := fun i => if i = REGS_PC then yield_label 0x8000 else if i = REGS_LR then lr
      else if i = REGS_SP then stack_size else 0 }

theorem calling_at_yield (lr : Word) : AtYield 0x8000 0 (calling lr) := ⟨rfl, rfl, rfl⟩

theorem calling_fits (lr : Word) : SpFits (calling lr) 0 ((calling lr).regs REGS_SP) := by
  have hstack : (0 : Word) ≤ stack_size ∧ stack_size ≤ stack_size := by decide
  exact hstack

theorem yields_once_iff_behind :
    YieldsOnce (exiting.linked user_section 0x8000 fun _ => false) 0 (calling (putc_label 0x8000)) :=
  (yields_once_iff exiting 0x8000 (fun _ => false) 0 _ (calling_at_yield _)).mpr
    ⟨calling_fits _, .inl (by decide)⟩

theorem calling_resumes (lr : Word) :
    Resumes (exiting.linked user_section 0x8000 fun _ => false) 0 (calling lr) :=
  resumes_alone user_section_has_yield (calling_at_yield lr) (calling_fits lr) rfl

/-- Called from `0x9010` the thread prints character 3 on its way back. -/
theorem calling_not_yields_once : AtYield 0x8000 0 (calling 0x9010) ∧
    ¬YieldsOnce (exiting.linked user_section 0x8000 fun _ => false) 0 (calling 0x9010) ∧
    ∃ t, steps (exiting.linked user_section 0x8000 fun _ => false) 6 (calling 0x9010) = .ok (.running t) ∧
      t.uart = [3] := by
  refine ⟨calling_at_yield _, fun h => ?_, ?_⟩
  · obtain ⟨-, hlr | hnever⟩ := h.back (calling_at_yield _)
    · exact absurd hlr (by decide)
    · exact hnever (calling_resumes _)
  · have hend : ((steps (exiting.linked user_section 0x8000 fun _ => false) 6
        (calling 0x9010)).toOption.bind Progress.running?).map uart = some [3] := by
      decide +kernel
    obtain ⟨t, hrun, huart⟩ := Option.map_eq_some_iff.mp hend
    exact ⟨t, Progress.eq_running hrun, huart⟩

/-- The section with the `bx lr` that is missing. -/
def returning_section : List Insn := sys_equiv_exit ++ (sys_equiv_yield ++ [.bx_lr]) ++ sys_equiv_putc

/-- With it every call does what it is to do. -/
theorem returning_yields_once (h : AtYield text th s) (hfits : SpFits s th (s.regs REGS_SP)) :
    YieldsOnce (p.linked returning_section text kernel) th s := by
  have hcode : HasYield returning_section := ⟨rfl, rfl⟩
  obtain ⟨t, hturn⟩ := exists_yield_turn p kernel hcode h hfits
  obtain ⟨-, ht⟩ := yield_turn hcode h hturn
  refine ⟨t, hturn, ht.uart, ht.rotated, fun u hu => ?_⟩
  obtain ⟨hready, -, hregs⟩ := ht.resumed hu
  obtain ⟨v, hsame, -, hplain⟩ :=
    turn_insn p returning_section kernel hready (by decide) rfl rfl (.inl rfl)
  have hkept : ∀ i : Fin 17, i ≠ REGS_PC → i ≠ 0 → u.regs i = s.regs i := by
    intro i hi h0
    rw [hregs]
    exact yielded_of_ne _ i hi h0
  refine ⟨v, (hplain v).mpr (.inr .refl), ?_, ?_, hsame.uart⟩
  · rw [hsame.regs, ← hkept REGS_LR (by decide) (by decide)]
    rfl
  · rw [hsame.regs, ← hkept REGS_SP (by decide) (by decide)]
    rfl

/-- In every call the resumed thread traps again: it prints the number of the first trap, and
goes behind the queued threads once more. -/
theorem yield_traps_twice (h : AtYield text th s) (hfits : SpFits s th (s.regs REGS_SP))
    (hroom : SpFits s th (s.regs REGS_SP - 4)) :
    ∃ t, Turn (p.linked user_section text kernel) s EQUIV_YIELD t ∧
      ∀ u, Resumed (p.linked user_section text kernel) th t u →
        ∃ v, Turn (p.linked user_section text kernel) u EQUIV_PUTC v ∧ v.uart = u.uart ++ [EQUIV_YIELD] ∧
          v.cur_thread.toList ++ v.equiv_runq = u.equiv_runq ++ [th] := by
  obtain ⟨t, hturn⟩ := exists_yield_turn p kernel user_section_has_yield h hfits
  obtain ⟨-, ht⟩ := yield_turn user_section_has_yield h hturn
  refine ⟨t, hturn, fun u hu => ?_⟩
  obtain ⟨hready, hschedule, hregs⟩ := ht.resumed hu
  have hfits' : SpFits u th (u.regs REGS_SP - 4) := by
    have hframe : (u.threads th).frame = (s.threads th).frame := by
      rw [(ht.parked.resumed hu).1.thread, ht.frame]
    have hsp : u.regs REGS_SP = s.regs REGS_SP := by
      rw [hregs]
      exact yielded_of_ne _ REGS_SP (by decide) (by decide)
    rw [hsp]
    exact (spFits_congr hframe).mpr hroom
  obtain ⟨v, hv, huart, hrotated, -⟩ := putc_turn p kernel hready hschedule hfits'
  refine ⟨v, hv, ?_, hrotated⟩
  rw [huart, hregs]
  rfl

end Checker

end EquivChecker
