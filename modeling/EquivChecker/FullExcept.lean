import EquivChecker.ArmCore
import EquivChecker.BitFields
import EquivChecker.Threads

/-!
# Exceptions with all registers, and switches

The trampolines of `full-except-asm.S` save the registers of user mode in a `regs_t` below
`INT_STACK_ADDR` and call the C handlers, which resume the saved registers with `switchto`.
-/

namespace EquivChecker.FullExcept

open ArmCore

/-- What is used of libpi. -/
structure Libpi where
  INT_STACK_ADDR : Word
  mode_get : Word → Word
  mode_get_eq : ∀ psr, mode_get psr = psr &&& 0b11111

def USER_MODE : Word := 0b10000

/-- The `regs_t` at an address. -/
def regsAt (m : Word → Word) (r : Word) : Regs := fun i => m (wordAt r i)

section Assembly

variable (lib : Libpi)

/-- Everything of a trampoline before the call, which gets the registers, the spsr and the
program counter as arguments. -/
def trampoline (adjust : Word) : List (Cpu → Cpu) :=
  [movImm 13 lib.INT_STACK_ADDR, sub 13 13 (17 * 4), sub 14 14 adjust, stmUser 13, str 14 13 15,
    mrsSpsr 0, str 0 13 16, mov 0 13, ldr 1 13 16, ldr 2 13 15]

def prefetch_handler_full : List (Cpu → Cpu) := trampoline lib 4

def data_abort_full : List (Cpu → Cpu) := trampoline lib 8

def syscall_full : List (Cpu → Cpu) := trampoline lib 0

def priv_get_sp_lr_asm : List (Cpu → Cpu) :=
  [mrsCpsr 3, msrCpsr 0, str 13 1 0, str 14 2 0, msrCpsr 3]

def switchto_user_asm : List (Cpu → Cpu) := [mov 13 0, ldmUser 13, add 13 13 60, rfe 13]

/-- The prefetch flush between the last two instructions uses r2, which is loaded next. -/
def switchto_priv_asm : List (Cpu → Cpu) := [ldr 1 0 16, msrCpsr 1, ldmPc 0]

/-- Both `cswitchto` routines, up to the branch to the `switchto` routine. -/
def cswitchto_save : List (Cpu → Cpu) :=
  [str 4 0 4, str 5 0 5, str 6 0 6, str 7 0 7, str 8 0 8, str 9 0 9, str 10 0 10, str 11 0 11,
    str 12 0 12, str 13 0 13, str 14 0 14, str 14 0 15, mrsCpsr 2, str 2 0 16, mov 0 1]

def cswitchto_user_asm : List (Cpu → Cpu) := cswitchto_save ++ switchto_user_asm

def cswitchto_priv_asm : List (Cpu → Cpu) := cswitchto_save ++ switchto_priv_asm

end Assembly

section Code

variable (lib : Libpi)

def switchto (r : Word) (c : Cpu) : Cpu :=
  if lib.mode_get (c.mem (wordAt r 16)) = USER_MODE then run switchto_user_asm (c.set 0 r)
  else run switchto_priv_asm (c.set 0 r)

def switchto_cswitch (old next : Word) (c : Cpu) : Except Fault Cpu :=
  if lib.mode_get c.cpsr = USER_MODE then .error (.panic "mode_get(cpsr_get()) != USER_MODE")
  else if lib.mode_get (c.mem (wordAt next 16)) = USER_MODE then
    .ok (run cswitchto_user_asm ((c.set 0 old).set 1 next))
  else .ok (run cswitchto_priv_asm ((c.set 0 old).set 1 next))

/-- All the trampolines assume that the exception came from user level. -/
def fixup_regs (r spsr : Word) (c : Cpu) : Cpu :=
  if lib.mode_get spsr = USER_MODE then c
  else run priv_get_sp_lr_asm (((c.set 0 spsr).set 1 (wordAt r 13)).set 2 (wordAt r 14))

/-- A client's handler, which gets the saved registers. -/
abbrev Handler := Word → Cpu → Except Fault Cpu

/-- The body shared by the two abort handlers. -/
def full_except (unhandled : String) (handler : Option Handler) (r spsr pc : Word) (c : Cpu) :
    Except Fault Cpu :=
  if spsr ≠ c.mem (wordAt r 16) then .error (.panic "spsr == r->regs[REGS_CPSR]")
  else if pc ≠ c.mem (wordAt r 15) then .error (.panic "pc == r->regs[REGS_PC]")
  else match handler with
    | none => .error (.panic unhandled)
    | some h => do
      let c ← h r (fixup_regs lib r spsr c)
      .ok (switchto lib r c)

def prefetch_abort_full_except := full_except lib "unhandled prefetch abort from pc=%x\n"

def data_abort_full_except := full_except lib "unhandled data abort from pc=%x\n"

/-- `loc` is the address of the variable `sp`. The result becomes the new r0. -/
def syscall_full_except (loc : Word)
    (handler : Option (Word → Cpu → Except Fault (Word × Cpu)))
    (r spsr pc : Word) (c : Cpu) : Except Fault Cpu :=
  if spsr ≠ c.mem (wordAt r 16) then .error (.panic "spsr == r->regs[REGS_CPSR]")
  else if pc ≠ c.mem (wordAt r 15) then .error (.panic "pc == r->regs[REGS_PC]")
  else if lib.mode_get spsr ≠ USER_MODE then
    .error (.panic "only handling system calls from user mode.\n")
  else if loc ≤ 100000 then .error (.panic "illegal stack pointer!")
  else match handler with
    | none => .error (.panic "unhandled syscall from pc=%x\n")
    | some h => do
      let (v, c) ← h r c
      .ok (switchto lib r { c with mem := Function.update c.mem (wordAt r 0) v })

/-- The vectors of the exceptions that are forwarded with all registers. -/
def full_except_ints : Trap → List (Cpu → Cpu)
  | .prefetchAbort => prefetch_handler_full lib
  | .dataAbort => data_abort_full lib
  | .swi => syscall_full lib

/-- The core at the call of the C handler. -/
def entered (t : Trap) (c : Cpu) : Cpu := run (full_except_ints lib t) (t.take c)

inductive Abort where
  | prefetch | data
  deriving DecidableEq, Repr

def Abort.trap : Abort → Trap
  | .prefetch => .prefetchAbort
  | .data => .dataAbort

/-- A whole abort: trampoline, C code and the client's handler. -/
def abort (k : Abort) (h : Option Handler) (c : Cpu) : Except Fault Cpu :=
  let d := entered lib k.trap c
  match k with
  | .prefetch => prefetch_abort_full_except lib h (d.get 0) (d.get 1) (d.get 2) d
  | .data => data_abort_full_except lib h (d.get 0) (d.get 1) (d.get 2) d

/-- A whole system call. -/
def syscall (loc : Word) (h : Option (Word → Cpu → Except Fault (Word × Cpu))) (c : Cpu) :
    Except Fault Cpu :=
  let d := entered lib .swi c
  syscall_full_except lib loc h (d.get 0) (d.get 1) (d.get 2) d

end Code

/-- The registers that the running code sees. -/
def regsOf (c : Cpu) : Regs := fun i =>
  if h : i.val < 15 then c.get ⟨i, h⟩ else if i = REGS_PC then c.pc else c.cpsr

variable {lib : Libpi} {c d : Cpu} {r old next : Word}

theorem Libpi.user_iff (lib : Libpi) (psr : Word) : lib.mode_get psr = USER_MODE ↔ mode psr = USR := by
  have hmask : psr &&& 0b11111 = (mode psr).setWidth 32 := by
    have h := BitField.shift_mask (n := 5) psr 0 (by decide)
    rwa [BitVec.ushiftRight_zero] at h
  rw [lib.mode_get_eq, hmask]
  constructor
  · intro h
    have h5 := congrArg (BitVec.setWidth 5) h
    rwa [BitVec.setWidth_setWidth_of_le _ (by decide), BitVec.setWidth_eq] at h5
  · intro h
    rw [h]
    rfl

/-- Where a trampoline puts the registers. -/
def block (lib : Libpi) : Word := lib.INT_STACK_ADDR - 17 * 4

/-- What a trampoline puts there. -/
def savedWord (c : Cpu) (adjust : Word) (i : ℕ) : Word :=
  if i < 15 then c.user (Fin.ofNat 15 i) else if i = 15 then c.get 14 - adjust else c.spsr c.bank

/-- The core when a trampoline makes its call. -/
structure Called (lib : Libpi) (adjust : Word) (c d : Cpu) : Prop where
  mem : d.mem = storeBlock c.mem (block lib) (savedWord c adjust) 17
  r : d.get 0 = block lib
  spsr : d.get 1 = c.spsr c.bank
  pc : d.get 2 = c.get 14 - adjust
  cpsr : d.cpsr = c.cpsr
  banked : ∀ b, b ≠ c.bank → ∀ i : Fin 15, 13 ≤ i → d.regs b i = c.regs b i

/-- The stack pointer and the link register of an exception mode are set. -/
structure Prepared (lib : Libpi) (adjust : Word) (c d : Cpu) : Prop where
  sp : d.get 13 = block lib
  lr : d.get 14 = c.get 14 - adjust
  mem : d.mem = c.mem
  cpsr : d.cpsr = c.cpsr
  spsr : d.spsr = c.spsr
  user : d.user = c.user
  banked : ∀ b, b ≠ c.bank → ∀ i : Fin 15, 13 ≤ i → d.regs b i = c.regs b i

theorem prepared (lib : Libpi) (adjust : Word) (hb : c.bank ≠ .usr) : Prepared lib adjust c
    (run [movImm 13 lib.INT_STACK_ADDR, sub 13 13 (17 * 4), sub 14 14 adjust] c) := by
  have hslot : ∀ i : Fin 15, 13 ≤ i → slot c.bank i ≠ .usr := fun i hi => (Cpu.slot_banked hi).symm ▸ hb
  constructor
  · simp [movImm, sub, Cpu.get_set, block]
  · simp [movImm, sub, Cpu.get_set]
  · rfl
  · rfl
  · rfl
  · calc _ = (sub 13 13 (17 * 4) (movImm 13 lib.INT_STACK_ADDR c)).user := Cpu.user_set (hslot 14 (by decide))
      _ = (movImm 13 lib.INT_STACK_ADDR c).user := Cpu.user_set (hslot 13 (by decide))
      _ = c.user := Cpu.user_set (hslot 13 (by decide))
  · intro b hne i hi
    calc _ = (sub 13 13 (17 * 4) (movImm 13 lib.INT_STACK_ADDR c)).regs b i := Cpu.regs_set_other hne hi
      _ = (movImm 13 lib.INT_STACK_ADDR c).regs b i := Cpu.regs_set_other hne hi
      _ = c.regs b i := Cpu.regs_set_other hne hi

theorem trampoline_called (lib : Libpi) (adjust : Word) (hb : c.bank ≠ .usr) :
    Called lib adjust c (run (trampoline lib adjust) c) := by
  have hp := prepared lib adjust hb
  generalize hd : run [movImm 13 lib.INT_STACK_ADDR, sub 13 13 (17 * 4), sub 14 14 adjust] c = d at hp
  have hrun : run (trampoline lib adjust) c =
      run [stmUser 13, str 14 13 15, mrsSpsr 0, str 0 13 16, mov 0 13, ldr 1 13 16, ldr 2 13 15] d := by
    rw [← hd]
    rfl
  rw [hrun]
  have hne : wordAt (block lib) 15 ≠ wordAt (block lib) 16 := fun h =>
    absurd (wordAt_inj (by decide) (by decide) h) (by decide)
  have hbank : d.bank = c.bank := by rw [Cpu.bank, hp.cpsr, Cpu.bank]
  have hmem : (run [stmUser 13, str 14 13 15, mrsSpsr 0, str 0 13 16, mov 0 13, ldr 1 13 16, ldr 2 13 15]
      d).mem = storeBlock c.mem (block lib) (savedWord c adjust) 17 := by
    have hstore : storeBlock c.mem (block lib) (fun i => c.user (Fin.ofNat 15 i)) 15 =
        storeBlock c.mem (block lib) (savedWord c adjust) 15 :=
      storeBlock_congr fun i hi => (if_pos hi).symm
    rw [storeBlock, storeBlock, ← hstore]
    simp [mov, ldr, mrsSpsr, Cpu.get_set, hp.sp, hp.lr, hp.mem, hp.spsr, hp.user, savedWord, hbank]
  constructor
  · exact hmem
  · simp [mov, ldr, mrsSpsr, Cpu.get_set, hp.sp]
  · simp [mov, ldr, mrsSpsr, Cpu.get_set, hp.sp, hp.spsr, hbank, hne]
  · simp [mov, ldr, mrsSpsr, Cpu.get_set, hp.sp, hp.lr, hbank, hne]
  · exact hp.cpsr
  · intro b hne i hi
    have hne' : b ≠ d.bank := fun h => hne (h.trans hbank)
    calc _ = (mov 0 13 (str 0 13 16 (mrsSpsr 0 (str 14 13 15 (stmUser 13 d))))).regs b i :=
        (Cpu.regs_set_other (by exact hne') hi).trans (Cpu.regs_set_other (by exact hne') hi)
      _ = (mrsSpsr 0 (str 14 13 15 (stmUser 13 d))).regs b i := Cpu.regs_set_other (by exact hne') hi
      _ = d.regs b i := Cpu.regs_set_other (by exact hne') hi
      _ = c.regs b i := hp.banked b hne i hi

theorem regs_cases {i : Fin 17} (hi : ¬i.val < 15) (hpc : i ≠ REGS_PC) : i = REGS_CPSR := by
  revert i
  decide

/-- `switchto` to user level loads everything from the block. -/
theorem switchto_user (hmode : mode (c.mem (wordAt r 16)) = USR) (hb : c.bank ≠ .usr) :
    regsOf (switchto lib r c) = regsAt c.mem r ∧ (switchto lib r c).mem = c.mem := by
  rw [switchto, if_pos ((lib.user_iff _).mpr hmode)]
  have h13 : slot c.bank 13 ≠ .usr := hb
  -- the stack pointer of the exception mode holds the address of the block
  have hsp : (mov 13 0 (c.set 0 r)).get 13 = r := by simp [mov]
  have hsp' : (add 13 13 60 (ldmUser 13 (mov 13 0 (c.set 0 r)))).get 13 = wordAt r 15 := by
    have hkept : (ldmUser 13 (mov 13 0 (c.set 0 r))).get 13 = _ := ldmUser_get (by exact h13)
    rw [add, Cpu.get_set_self, hkept, hsp]
    rfl
  have hpc := rfe_pc hsp'
  have hcpsr := rfe_cpsr hsp'
  rw [wordAt_wordAt] at hcpsr
  have husr : (run switchto_user_asm (c.set 0 r)).bank = .usr := by
    have hcpsr' : (run switchto_user_asm (c.set 0 r)).cpsr = c.mem (wordAt r 16) := hcpsr
    rw [Cpu.bank, hcpsr', hmode]
    rfl
  refine ⟨funext fun i => ?_, rfl⟩
  unfold regsOf regsAt
  split_ifs with hi hpc'
  · rw [Cpu.get_user husr]
    calc _ = (ldmUser 13 (mov 13 0 (c.set 0 r))).user ⟨i, hi⟩ :=
        congrFun (Cpu.user_set (by exact h13)) _
      _ = _ := by
        rw [ldmUser_user, hsp]
        rfl
  · rw [hpc']
    exact hpc
  · rw [regs_cases hi hpc']
    exact hcpsr

/-- `switchto` to another mode. -/
theorem switchto_priv (hmode : mode (c.mem (wordAt r 16)) ≠ USR) :
    (∀ i, i ≠ REGS_CPSR → regsOf (switchto lib r c) i = regsAt c.mem r i) ∧
      (switchto lib r c).cpsr = flagsAndControl c.cpsr (c.mem (wordAt r 16)) ∧
      (switchto lib r c).mem = c.mem := by
  rw [switchto, if_neg ((lib.user_iff _).not.mpr hmode)]
  have h1 : (ldr 1 0 16 (c.set 0 r)).get 1 = c.mem (wordAt r 16) := by simp [ldr]
  -- r0 is the same register in both modes
  have hlow : ∀ x : Cpu, x.get 0 = x.regs .usr 0 := fun x => by rw [Cpu.get, Cpu.slot_low _ (by decide)]
  have h0 : (msrCpsr 1 (ldr 1 0 16 (c.set 0 r))).get 0 = r := by
    calc _ = (ldr 1 0 16 (c.set 0 r)).regs .usr 0 := hlow _
      _ = (ldr 1 0 16 (c.set 0 r)).get 0 := (hlow _).symm
      _ = r := by simp [ldr, Cpu.get_set]
  refine ⟨fun i hi => ?_, ?_, rfl⟩
  · unfold regsOf regsAt
    split_ifs with hlt hpc
    · calc _ = _ := ldmPc_get
        _ = _ := by
          rw [h0]
          rfl
    · rw [hpc]
      exact congrArg (fun a => c.mem (wordAt a 15)) h0
    · exact absurd (regs_cases hlt hpc) hi
  · exact congrArg (flagsAndControl c.cpsr) h1

/-- The program counter that is saved: of the faulting instruction, or behind the `swi`. -/
def resumePc (t : Trap) (c : Cpu) : Word := if t = .swi then c.pc + 4 else c.pc

/-- What is saved of a core, as if it came from user level. -/
def saved (t : Trap) (c : Cpu) : Regs := fun i =>
  if h : i.val < 15 then c.user ⟨i, h⟩ else if i = REGS_PC then resumePc t c else c.cpsr

/-- The core when the C handler is called. -/
structure Entered (lib : Libpi) (t : Trap) (c d : Cpu) : Prop where
  regs : regsAt d.mem (block lib) = saved t c
  mem : ∀ a, (∀ i : Fin 17, a ≠ wordAt (block lib) i) → d.mem a = c.mem a
  r : d.get 0 = block lib
  spsr : d.get 1 = c.cpsr
  pc : d.get 2 = resumePc t c
  cpsr : d.cpsr = t.psr c.cpsr
  banked : ∀ b, b ≠ bankOf t.mode → ∀ i : Fin 15, 13 ≤ i → d.regs b i = c.regs b i

theorem entered_called (lib : Libpi) (t : Trap) (c : Cpu) : ∃ adjust,
    Called lib adjust (t.take c) (entered lib t c) ∧ c.pc + t.linkOffset - adjust = resumePc t c := by
  have hb : (t.take c).bank ≠ .usr := by
    have hmode : (t.take c).bank = bankOf t.mode := congrArg bankOf (t.mode_psr c.cpsr)
    rw [hmode]
    cases t <;> decide
  cases t with
  | prefetchAbort => exact ⟨4, trampoline_called lib 4 hb, BitVec.add_sub_cancel _ _⟩
  | dataAbort => exact ⟨8, trampoline_called lib 8 hb, BitVec.add_sub_cancel _ _⟩
  | swi => exact ⟨0, trampoline_called lib 0 hb, BitVec.sub_zero _⟩

theorem entered_spec (lib : Libpi) (t : Trap) (c : Cpu) : Entered lib t c (entered lib t c) := by
  obtain ⟨adjust, hcalled, hpc⟩ := entered_called lib t c
  have hbank : (t.take c).bank = bankOf t.mode := congrArg bankOf (t.mode_psr c.cpsr)
  have hne : bankOf t.mode ≠ .usr := by cases t <;> decide
  have hlr : (t.take c).get 14 = c.pc + t.linkOffset := by
    rw [Cpu.get, hbank, Cpu.slot_banked (by decide)]
    exact if_pos ⟨rfl, rfl⟩
  have hspsr : (t.take c).spsr (t.take c).bank = c.cpsr := by
    rw [hbank]
    exact Function.update_self _ _ _
  have huser : (t.take c).user = c.user := by
    funext i
    exact if_neg fun h => hne h.1.symm
  constructor
  · funext i
    rw [regsAt, hcalled.mem, storeBlock_at (by decide) i.isLt]
    by_cases hi : i.val < 15
    · rw [savedWord, if_pos hi, saved, dif_pos hi, huser]
      exact congrArg c.user (Fin.ext (Nat.mod_eq_of_lt hi))
    · by_cases hpc' : i = REGS_PC
      · rw [hpc']
        exact (congrArg (· - adjust) hlr).trans hpc
      · rw [regs_cases hi hpc']
        exact hspsr
  · intro a ha
    rw [hcalled.mem, storeBlock_other fun i hi => ha ⟨i, hi⟩]
    rfl
  · exact hcalled.r
  · exact hcalled.spsr.trans hspsr
  · rw [hcalled.pc, hlr, hpc]
  · exact hcalled.cpsr
  · intro b hb i hi
    rw [hcalled.banked b (by rwa [hbank]) i hi]
    exact if_neg fun h => hb h.1

theorem saved_of_user (k : Abort) (huser : mode c.cpsr = USR) : saved k.trap c = regsOf c := by
  have hb : c.bank = .usr := congrArg bankOf huser
  funext i
  unfold saved regsOf
  split_ifs
  · exact (Cpu.get_user hb).symm
  · cases k <;> rfl
  · rfl

/-- The C code of an abort runs the handler on the block and resumes what it left there. -/
theorem full_except_eq (unhandled : String) {t : Trap} (hd : Entered lib t c d) (h : Handler) :
    full_except lib unhandled (some h) (d.get 0) (d.get 1) (d.get 2) d =
      h (block lib) (fixup_regs lib (block lib) c.cpsr d) >>= fun e => .ok (switchto lib (block lib) e) := by
  have hspsr : c.cpsr = d.mem (wordAt (block lib) 16) := (congrFun hd.regs REGS_CPSR).symm
  have hpc : resumePc t c = d.mem (wordAt (block lib) 15) := (congrFun hd.regs REGS_PC).symm
  rw [hd.r, hd.spsr, hd.pc, full_except, if_neg (not_not.mpr hspsr), if_neg (not_not.mpr hpc)]

theorem abort_eq (lib : Libpi) (k : Abort) (h : Handler) (c : Cpu) : abort lib k (some h) c =
    h (block lib) (fixup_regs lib (block lib) c.cpsr (entered lib k.trap c)) >>=
      fun e => .ok (switchto lib (block lib) e) := by
  cases k with
  | prefetch => exact full_except_eq "unhandled prefetch abort from pc=%x\n" (entered_spec lib _ c) h
  | data => exact full_except_eq "unhandled data abort from pc=%x\n" (entered_spec lib _ c) h

/-- An abort of a thread at user level: the handler finds the thread's registers, the program
counter still at the instruction that aborted, and every other word as it was. When it returns,
the thread goes on with what the handler left in the block. -/
theorem user_abort_resumes (lib : Libpi) (k : Abort) (c : Cpu) (huser : mode c.cpsr = USR) :
    regsAt (entered lib k.trap c).mem (block lib) = regsOf c ∧
    (∀ a, (∀ i : Fin 17, a ≠ wordAt (block lib) i) → (entered lib k.trap c).mem a = c.mem a) ∧
    ∀ (h : Handler) (e : Cpu), h (block lib) (entered lib k.trap c) = .ok e → e.bank ≠ .usr →
      mode (regsAt e.mem (block lib) REGS_CPSR) = USR →
      ∃ d, abort lib k (some h) c = .ok d ∧ regsOf d = regsAt e.mem (block lib) ∧ d.mem = e.mem := by
  have hd := entered_spec lib k.trap c
  refine ⟨hd.regs.trans (saved_of_user k huser), hd.mem, fun h e he hbank hmode => ?_⟩
  obtain ⟨hregs, hmem⟩ := @switchto_user lib e (block lib) hmode hbank
  refine ⟨_, ?_, hregs, hmem⟩
  rw [abort_eq, fixup_regs, if_pos ((lib.user_iff _).mpr huser), he]
  rfl

/-- The functions of `cpsr-util.h`, with a stack at 144 MB. -/
def libpi : Libpi where
  INT_STACK_ADDR := 0x9000000
  mode_get psr := psr &&& 0b11111
  mode_get_eq _ := rfl

/-- Every register holds its number. -/
def numbered (cpsr : Word) : Cpu := ⟨fun _ r => BitVec.ofNat 32 r, 0x8000, cpsr, fun _ => 0, fun _ => 0⟩

theorem entered_privileged (lib : Libpi) (t : Trap) (c : Cpu) : (entered lib t c).bank ≠ .usr := by
  rw [Cpu.bank, (entered_spec lib t c).cpsr, t.mode_psr]
  cases t <;> decide

/-- A handler that does nothing. -/
theorem user_abort_resumes_numbered : ∃ d, abort libpi .data (some fun _ c => .ok c) (numbered 0x10) = .ok d ∧
    regsOf d = regsOf (numbered 0x10) := by
  obtain ⟨hregs, -, hresumes⟩ := user_abort_resumes libpi .data (numbered 0x10) rfl
  obtain ⟨d, hd, hregs', -⟩ := hresumes (fun _ c => .ok c) _ rfl (entered_privileged _ _ _)
    (by rw [hregs]; rfl)
  exact ⟨d, hd, hregs'.trans hregs⟩

/-- The stack pointer and the link register of the interrupted mode are read in that mode. -/
theorem fixup_regs_spec {t : Trap} (hd : Entered lib t c d) (hmode : mode c.cpsr ≠ USR)
    (hb : c.bank ≠ bankOf t.mode) : (fixup_regs lib r c.cpsr d).cpsr = d.cpsr ∧
      (fixup_regs lib r c.cpsr d).mem =
        Function.update (Function.update d.mem (wordAt r 13) (c.get 13)) (wordAt r 14) (c.get 14) := by
  rw [fixup_regs, if_neg ((lib.user_iff _).not.mpr hmode)]
  generalize hx : mrsCpsr 3 (((d.set 0 c.cpsr).set 1 (wordAt r 13)).set 2 (wordAt r 14)) = x
  have h0 : x.get 0 = c.cpsr := by simp [← hx, mrsCpsr, Cpu.get_set]
  have h3 : x.get 3 = d.cpsr := by simp [← hx, mrsCpsr]
  have hcpsr : (msrCpsr 0 x).cpsr = flagsAndControl d.cpsr c.cpsr := by
    rw [msrCpsr, h0, ← hx]
    rfl
  have hbank : (msrCpsr 0 x).bank = c.bank := by rw [Cpu.bank, hcpsr, mode_flagsAndControl, Cpu.bank]
  have hlow : ∀ i : Fin 15, i < 8 → (msrCpsr 0 x).get i = x.get i := fun i hi => by
    rw [Cpu.get_low _ hi, Cpu.get_low _ hi]
    rfl
  have hregs : ∀ i : Fin 15, 13 ≤ i → (msrCpsr 0 x).get i = c.get i := by
    intro i hi
    rw [Cpu.get_banked _ hi, Cpu.get_banked _ hi, hbank, ← hd.banked _ hb i hi, ← hx]
    have hne : ∀ j : Fin 15, j < 8 → i ≠ j := by omega
    simp [msrCpsr, mrsCpsr, Cpu.set, hne]
  have h1 : (msrCpsr 0 x).get 1 = wordAt r 13 := by
    rw [hlow 1 (by decide), ← hx]
    simp [mrsCpsr, Cpu.get_set]
  have h2 : (msrCpsr 0 x).get 2 = wordAt r 14 := by
    rw [hlow 2 (by decide), ← hx]
    simp [mrsCpsr, Cpu.get_set]
  constructor
  · calc _ = flagsAndControl (msrCpsr 0 x).cpsr ((msrCpsr 0 x).get 3) := by rw [← hx]; rfl
      _ = d.cpsr := by rw [hlow 3 (by decide), h3, hcpsr, flagsAndControl_back]
  · have hmem : (msrCpsr 0 x).mem = d.mem := by rw [← hx]; rfl
    calc _ = (str 14 2 0 (str 13 1 0 (msrCpsr 0 x))).mem := by rw [← hx]; rfl
      _ = _ := by
        rw [str_mem, str_get, str_mem, h1, h2, hregs 13 (by decide), hregs 14 (by decide), hmem, wordAt_zero,
          wordAt_zero]

theorem fixup_regs_block {t : Trap} (hd : Entered lib t c d) (hmode : mode c.cpsr ≠ USR)
    (hb : c.bank ≠ bankOf t.mode) (hfiq : c.bank ≠ .fiq) (ht : t ≠ .swi) :
    regsAt (fixup_regs lib (block lib) c.cpsr d).mem (block lib) = regsOf c := by
  have hne : ∀ {i j : ℕ}, i < 17 → j < 17 → i ≠ j → wordAt (block lib) i ≠ wordAt (block lib) j :=
    fun hi hj h heq => h (wordAt_inj (by omega) (by omega) heq)
  funext i
  rw [regsAt, (fixup_regs_spec hd hmode hb).2, regsOf]
  by_cases h14 : i.val = 14
  · rw [h14, Function.update_self, dif_pos (by omega)]
    rfl
  rw [Function.update_of_ne (hne i.isLt (by decide) h14)]
  by_cases h13 : i.val = 13
  · rw [h13, Function.update_self, dif_pos (by omega)]
    rfl
  rw [Function.update_of_ne (hne i.isLt (by decide) h13)]
  refine (congrFun hd.regs i).trans ?_
  unfold saved
  split_ifs with hi hpc
  · exact (Cpu.get_general (Fin.lt_def.mpr (show i.val < 13 by omega)) hfiq).symm
  · rw [resumePc, if_neg ht]
  · rfl

/-- An abort in another privileged mode than that of aborts or fast interrupts: the registers of
that mode are found in the block and loaded again. Of the status register `msr` writes the flags
and the control byte. -/
theorem privileged_abort_resumes (lib : Libpi) (k : Abort) (c : Cpu) (hmode : mode c.cpsr ≠ USR)
    (habt : c.bank ≠ .abt) (hfiq : c.bank ≠ .fiq) :
    let d := fixup_regs lib (block lib) c.cpsr (entered lib k.trap c)
    regsAt d.mem (block lib) = regsOf c ∧
    (∀ a, (∀ i : Fin 17, a ≠ wordAt (block lib) i) → d.mem a = c.mem a) ∧
    ∀ (h : Handler) (e : Cpu), h (block lib) d = .ok e → mode (regsAt e.mem (block lib) REGS_CPSR) ≠ USR →
      ∃ d, abort lib k (some h) c = .ok d ∧
        (∀ i, i ≠ REGS_CPSR → regsOf d i = regsAt e.mem (block lib) i) ∧
        d.cpsr = flagsAndControl e.cpsr (regsAt e.mem (block lib) REGS_CPSR) ∧ d.mem = e.mem := by
  intro d
  have hd := entered_spec lib k.trap c
  have hb : c.bank ≠ bankOf k.trap.mode := by cases k <;> exact habt
  have ht : k.trap ≠ .swi := by cases k <;> decide
  refine ⟨fixup_regs_block hd hmode hb hfiq ht, fun a ha => ?_, fun h e he hmode' => ?_⟩
  · have h13 : a ≠ wordAt (block lib) 13 := ha 13
    have h14 : a ≠ wordAt (block lib) 14 := ha 14
    rw [(fixup_regs_spec hd hmode hb).2, Function.update_of_ne h14, Function.update_of_ne h13]
    exact hd.mem a ha
  · obtain ⟨hregs, hcpsr, hmem⟩ := @switchto_priv lib e (block lib) hmode'
    refine ⟨_, ?_, hregs, hcpsr, hmem⟩
    rw [abort_eq, he]
    rfl

theorem privileged_abort_resumes_numbered : ∃ d,
    abort libpi .prefetch (some fun _ c => .ok c) (numbered 0x13) = .ok d ∧
      ∀ i, i ≠ REGS_CPSR → regsOf d i = regsOf (numbered 0x13) i := by
  obtain ⟨hregs, -, hresumes⟩ := privileged_abort_resumes libpi .prefetch (numbered 0x13) (by decide)
    (by decide) (by decide)
  obtain ⟨d, hd, hregs', -⟩ := hresumes (fun _ c => .ok c) _ rfl (by rw [hregs]; decide)
  exact ⟨d, hd, fun i hi => (hregs' i hi).trans (congrFun hregs i)⟩

/-- A system call of a thread at user level: the handler finds the thread's registers with the
program counter behind the `swi`, and the thread goes on with what is in the block, its r0
replaced by the result. -/
theorem syscall_resumes (lib : Libpi) (c : Cpu) (huser : mode c.cpsr = USR) {loc : Word}
    (hloc : 100000 < loc) : (∀ i, regsAt (entered lib .swi c).mem (block lib) i =
      if i = REGS_PC then c.pc + 4 else regsOf c i) ∧
    ∀ (h : Word → Cpu → Except Fault (Word × Cpu)) (v : Word) (e : Cpu),
      h (block lib) (entered lib .swi c) = .ok (v, e) → e.bank ≠ .usr →
      mode (regsAt e.mem (block lib) REGS_CPSR) = USR → ∃ d, syscall lib loc (some h) c = .ok d ∧
        regsOf d = Function.update (regsAt e.mem (block lib)) 0 v ∧
        d.mem = Function.update e.mem (block lib) v := by
  have hd := entered_spec lib .swi c
  have hb : c.bank = .usr := congrArg bankOf huser
  refine ⟨fun i => ?_, fun h v e he hbank hmode => ?_⟩
  · rw [hd.regs, saved, regsOf]
    split_ifs with hi hpc hpc
    · rw [hpc] at hi
      exact absurd hi (by decide)
    · exact (Cpu.get_user hb).symm
    · rfl
    · rfl
  · have hspsr : c.cpsr = (entered lib .swi c).mem (wordAt (block lib) 16) :=
      (congrFun hd.regs REGS_CPSR).symm
    have hpc : resumePc .swi c = (entered lib .swi c).mem (wordAt (block lib) 15) :=
      (congrFun hd.regs REGS_PC).symm
    have hne : wordAt (block lib) 16 ≠ wordAt (block lib) 0 := fun h =>
      absurd (wordAt_inj (by decide) (by decide) h) (by decide)
    have hmode' : mode (Function.update e.mem (wordAt (block lib) 0) v (wordAt (block lib) 16)) = USR := by
      rw [Function.update_of_ne hne]
      exact hmode
    obtain ⟨hregs, hmem⟩ := @switchto_user lib
      { e with mem := Function.update e.mem (wordAt (block lib) 0) v } (block lib) hmode' hbank
    refine ⟨_, ?_, hregs.trans (funext fun i => ?_), hmem.trans (by rw [wordAt_zero])⟩
    · rw [syscall, hd.r, hd.spsr, hd.pc, syscall_full_except, if_neg (not_not.mpr hspsr),
        if_neg (not_not.mpr hpc), if_neg (not_not.mpr ((lib.user_iff _).mpr huser)), if_neg (by simpa using hloc)]
      rw [he]
      rfl
    · change Function.update e.mem (wordAt (block lib) 0) v (wordAt (block lib) i) = _
      by_cases hi : i = 0
      · rw [hi, Function.update_self]
        exact Function.update_self _ _ _
      · have hword : wordAt (block lib) i ≠ wordAt (block lib) 0 := fun h =>
          hi (Fin.ext (wordAt_inj (by omega) (by decide) h))
        rw [Function.update_of_ne hi, Function.update_of_ne hword]
        rfl

/-- A system call that returns 7. -/
theorem syscall_resumes_numbered : ∃ d,
    syscall libpi 0x8ffff00 (some fun _ c => .ok (7, c)) (numbered 0x10) = .ok d ∧
      regsOf d 0 = 7 ∧ regsOf d 1 = 1 ∧ regsOf d REGS_PC = 0x8004 := by
  obtain ⟨hregs, hresumes⟩ := syscall_resumes libpi (numbered 0x10) rfl
    (show 100000 < (0x8ffff00 : Word) by decide)
  obtain ⟨d, hd, hregs', -⟩ := hresumes (fun _ c => .ok (7, c)) 7 _ rfl (entered_privileged _ _ _)
    (by rw [hregs]; rfl)
  refine ⟨d, hd, by rw [hregs']; rfl, ?_, ?_⟩
  · rw [hregs', Function.update_of_ne (by decide), hregs]
    rfl
  · rw [hregs', Function.update_of_ne (by decide), hregs]
    rfl

/-- What `cswitchto` saves of the registers from r4 on. -/
def calleeSaved (c : Cpu) (i : ℕ) : Word :=
  if i < 15 then c.get (Fin.ofNat 15 i) else if i = 15 then c.get 14 else c.cpsr

/-- The core when the registers are saved in `old`, at the branch to the `switchto` routine. -/
structure SavedTo (old next : Word) (c d : Cpu) : Prop where
  block : ∀ i, 4 ≤ i → i < 17 → d.mem (wordAt old i) = calleeSaved c i
  mem : ∀ a, (∀ i, 4 ≤ i → i < 17 → a ≠ wordAt old i) → d.mem a = c.mem a
  r0 : d.get 0 = next
  cpsr : d.cpsr = c.cpsr

theorem cswitchto_save_spec (old next : Word) (c : Cpu) :
    SavedTo old next c (run cswitchto_save ((c.set 0 old).set 1 next)) := by
  have hmem : (run cswitchto_save ((c.set 0 old).set 1 next)).mem =
      storeBlock c.mem (wordAt old 4) (fun i => calleeSaved c (4 + i)) 13 := by
    simp [cswitchto_save, mrsCpsr, mov, Cpu.get_set, storeBlock, wordAt_wordAt, calleeSaved]
  constructor
  · intro i hi hlt
    have hat := @storeBlock_at c.mem (wordAt old 4) (fun i => calleeSaved c (4 + i)) 13 (i - 4) (by decide)
      (by omega)
    rw [wordAt_wordAt, show 4 + (i - 4) = i by omega] at hat
    rw [hmem, hat]
  · intro a ha
    rw [hmem]
    refine storeBlock_other fun i hi => ?_
    rw [wordAt_wordAt]
    exact ha (4 + i) (by omega) (by omega)
  · simp [cswitchto_save, mrsCpsr, mov, Cpu.get_set]
  · rfl

/-- A voluntary switch behaves like a call: the next registers are loaded, and a later switch to
the saved ones, by whatever privileged code, goes on behind the call with r4 to r14 and the
status as they were. -/
theorem cswitch_returns (lib : Libpi) (old next : Word) (c : Cpu) (hbank : c.bank ≠ .usr)
    (hdisjoint : ∀ i j : Fin 17, wordAt next i ≠ wordAt old j) :
    ∃ d, switchto_cswitch lib old next c = .ok d ∧
      (∀ i, i ≠ REGS_CPSR → regsOf d i = regsAt c.mem next i) ∧
      mode d.cpsr = mode (regsAt c.mem next REGS_CPSR) ∧
      ∀ e : Cpu, (∀ i : Fin 17, 4 ≤ i.val → regsAt e.mem old i = regsAt d.mem old i) →
        (∀ i : Fin 15, 4 ≤ i.val → (switchto lib old e).get i = c.get i) ∧
        (switchto lib old e).pc = c.get 14 ∧
        (switchto lib old e).cpsr = flagsAndControl e.cpsr c.cpsr ∧ (switchto lib old e).mem = e.mem := by
  have hmode : mode c.cpsr ≠ USR := fun h => hbank (congrArg bankOf h)
  have hs := cswitchto_save_spec old next c
  generalize hd : run cswitchto_save ((c.set 0 old).set 1 next) = s at hs
  have hnext : regsAt s.mem next = regsAt c.mem next := funext fun i =>
    hs.mem _ fun j _ hj => hdisjoint i ⟨j, hj⟩
  have hset : s.set 0 next = s := by
    rw [← hs.r0]
    exact Cpu.set_get_self s 0
  -- both branches are the switch to `next` after the registers were saved
  have hrun : switchto_cswitch lib old next c = .ok (switchto lib next s) := by
    have hcpsr : s.mem (wordAt next 16) = c.mem (wordAt next 16) := congrFun hnext REGS_CPSR
    rw [switchto_cswitch, if_neg ((lib.user_iff _).not.mpr hmode), switchto, hset, cswitchto_user_asm,
      cswitchto_priv_asm, run_append, run_append, hd, hcpsr]
    split_ifs <;> rfl
  have hloads : (∀ i, i ≠ REGS_CPSR → regsOf (switchto lib next s) i = regsAt s.mem next i) ∧
      mode (switchto lib next s).cpsr = mode (regsAt s.mem next REGS_CPSR) ∧
      (switchto lib next s).mem = s.mem := by
    by_cases hn : mode (s.mem (wordAt next 16)) = USR
    · have hsbank : s.bank ≠ .usr := by rwa [Cpu.bank, hs.cpsr]
      obtain ⟨hregs, hmem⟩ := @switchto_user lib s next hn hsbank
      exact ⟨fun i _ => congrFun hregs i, congrArg mode (congrFun hregs REGS_CPSR), hmem⟩
    · obtain ⟨hregs, hcpsr, hmem⟩ := @switchto_priv lib s next hn
      exact ⟨hregs, (congrArg mode hcpsr).trans (mode_flagsAndControl _ _), hmem⟩
  rw [hnext] at hloads
  refine ⟨_, hrun, hloads.1, hloads.2.1, fun e he => ?_⟩
  have hold : ∀ i : Fin 17, 4 ≤ i.val → e.mem (wordAt old i) = calleeSaved c i := by
    intro i hi
    refine (he i hi).trans ?_
    rw [regsAt, hloads.2.2]
    exact hs.block i hi i.isLt
  have hcpsr : e.mem (wordAt old 16) = c.cpsr := hold REGS_CPSR (by decide)
  obtain ⟨hregs, hcpsr', hmem⟩ := @switchto_priv lib e old (by rwa [hcpsr])
  rw [hcpsr] at hcpsr'
  refine ⟨fun i hi => ?_, ?_, hcpsr', hmem⟩
  · have hne : (⟨i, by omega⟩ : Fin 17) ≠ REGS_CPSR := fun h => by
      have hval : i.val = 16 := congrArg Fin.val h
      omega
    have hget := hregs _ hne
    rw [regsOf, dif_pos i.isLt, regsAt, hold _ hi, calleeSaved, if_pos i.isLt] at hget
    exact hget.trans (congrArg c.get (Fin.ext (Nat.mod_eq_of_lt i.isLt)))
  · exact (hregs REGS_PC (by decide)).trans (hold REGS_PC (by decide))

/-- Switching back at once. -/
theorem cswitch_returns_numbered : ∃ d, switchto_cswitch libpi 0x100000 0x200000 (numbered 0x13) = .ok d ∧
    (switchto libpi 0x100000 d).get 4 = 4 ∧ (switchto libpi 0x100000 d).pc = 14 := by
  obtain ⟨d, hd, -, -, hback⟩ := cswitch_returns libpi 0x100000 0x200000 (numbered 0x13) (by decide)
    (by decide +kernel)
  obtain ⟨hregs, hpc, -⟩ := hback d fun _ _ => rfl
  exact ⟨d, hd, hregs 4 (by decide), hpc⟩

end EquivChecker.FullExcept
