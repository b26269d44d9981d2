import Mathlib.Data.BitVec
import Mathlib.Logic.Function.Basic

/-!
# Banked registers of an ARMv6 core

User and system mode use the same registers. Every exception mode has a stack pointer and a
link register of its own, fast interrupts also r8 to r12. Memory is read and written by
aligned words. Instructions are functions on the state of the core.
-/

namespace ArmCore

abbrev Word := BitVec 32

inductive Bank where
  | usr | fiq | irq | svc | abt | und
  deriving DecidableEq, Repr

instance neZeroRegisters : NeZero 15 := ⟨by decide⟩

/-- The mode field of a status register. -/
def mode (psr : Word) : BitVec 5 := psr.extractLsb' 0 5

def USR : BitVec 5 := 0b10000
def FIQ : BitVec 5 := 0b10001
def IRQ : BitVec 5 := 0b10010
def SVC : BitVec 5 := 0b10011
def ABT : BitVec 5 := 0b10111
def UND : BitVec 5 := 0b11011

def bankOf (m : BitVec 5) : Bank :=
  if m = FIQ then .fiq else if m = IRQ then .irq else if m = SVC then .svc
  else if m = ABT then .abt else if m = UND then .und else .usr

/-- Where a mode with bank `b` has its register `r`. -/
def slot (b : Bank) (r : Fin 15) : Bank :=
  if r < 8 then .usr else if r < 13 then (if b = .fiq then .fiq else .usr) else b

structure Cpu where
  /-- r0 to r14 of every bank. -/
  regs : Bank → Fin 15 → Word
  pc : Word
  cpsr : Word
  spsr : Bank → Word
  mem : Word → Word

namespace Cpu

def bank (c : Cpu) : Bank := bankOf (mode c.cpsr)

/-- A register of the current mode. -/
def get (c : Cpu) (r : Fin 15) : Word := c.regs (slot c.bank r) r

def set (c : Cpu) (r : Fin 15) (v : Word) : Cpu :=
  { c with regs := fun b i => if b = slot c.bank r ∧ i = r then v else c.regs b i }

/-- A register of user mode. -/
def user (c : Cpu) (r : Fin 15) : Word := c.regs .usr r

end Cpu

/-- The `k`-th word from `base` on. -/
def wordAt (base : Word) (k : ℕ) : Word := base + BitVec.ofNat 32 (4 * k)

/-- The first `n` words from `base` on are overwritten. -/
def storeBlock (m : Word → Word) (base : Word) (f : ℕ → Word) : ℕ → Word → Word
  | 0 => m
  | n + 1 => Function.update (storeBlock m base f n) (wordAt base n) (f n)

/-! ### Instructions -/

def movImm (rd : Fin 15) (v : Word) (c : Cpu) : Cpu := c.set rd v

def mov (rd rm : Fin 15) (c : Cpu) : Cpu := c.set rd (c.get rm)

def add (rd rn : Fin 15) (v : Word) (c : Cpu) : Cpu := c.set rd (c.get rn + v)

def sub (rd rn : Fin 15) (v : Word) (c : Cpu) : Cpu := c.set rd (c.get rn - v)

/-- `str rd, [rn, #(4 * k)]` -/
def str (rd rn : Fin 15) (k : ℕ) (c : Cpu) : Cpu :=
  { c with mem := Function.update c.mem (wordAt (c.get rn) k) (c.get rd) }

/-- `ldr rd, [rn, #(4 * k)]` -/
def ldr (rd rn : Fin 15) (k : ℕ) (c : Cpu) : Cpu := c.set rd (c.mem (wordAt (c.get rn) k))

/-- `stm rn, {r0-r14}^` stores the registers of user mode. -/
def stmUser (rn : Fin 15) (c : Cpu) : Cpu :=
  { c with mem := storeBlock c.mem (c.get rn) (fun i => c.user (Fin.ofNat 15 i)) 15 }

/-- `ldm rn, {r0-r14}^` loads the registers of user mode. -/
def ldmUser (rn : Fin 15) (c : Cpu) : Cpu :=
  { c with regs := Function.update c.regs .usr fun r => c.mem (wordAt (c.get rn) r) }

/-- `ldm rn, {r0-r15}` loads the registers of the current mode and jumps. -/
def ldmPc (rn : Fin 15) (c : Cpu) : Cpu :=
  { c with
    regs := fun b r => if b = slot c.bank r then c.mem (wordAt (c.get rn) r) else c.regs b r
    pc := c.mem (wordAt (c.get rn) 15) }

def mrsCpsr (rd : Fin 15) (c : Cpu) : Cpu := c.set rd c.cpsr

def mrsSpsr (rd : Fin 15) (c : Cpu) : Cpu := c.set rd (c.spsr c.bank)

/-- The flags and the control byte of `v`, the other bytes of `old`. -/
def flagsAndControl (old v : Word) : Word := (old &&& 0x00ffff00) ||| (v &&& 0xff0000ff)

/-- `msr cpsr, rm` writes the flags and the control byte only. -/
def msrCpsr (rm : Fin 15) (c : Cpu) : Cpu := { c with cpsr := flagsAndControl c.cpsr (c.get rm) }

/-- `rfe rn` loads the program counter and the status register. -/
def rfe (rn : Fin 15) (c : Cpu) : Cpu :=
  { c with pc := c.mem (wordAt (c.get rn) 0), cpsr := c.mem (wordAt (c.get rn) 1) }

/-- Straight-line code. -/
def run (code : List (Cpu → Cpu)) (c : Cpu) : Cpu := code.foldl (fun c i => i c) c

/-! ### Exceptions -/

/-- The exceptions that are forwarded with all registers. -/
inductive Trap where
  | prefetchAbort | dataAbort | swi
  deriving DecidableEq, Repr

namespace Trap

def mode : Trap → BitVec 5
  | .swi => SVC
  | _ => ABT

/-- What is added to the address of the instruction that caused the exception. -/
def linkOffset : Trap → Word
  | .dataAbort => 8
  | _ => 4

/-- Interrupts are masked, after an abort also imprecise aborts. -/
def psr (t : Trap) (cpsr : Word) : Word :=
  (cpsr &&& ~~~0x23f) ||| t.mode.setWidth 32 ||| 0x80 ||| (if t = .swi then 0 else 0x100)

/-- The core takes the exception at the current instruction. -/
def take (t : Trap) (c : Cpu) : Cpu :=
  let b := bankOf t.mode
  { c with
    regs := fun x r => if x = b ∧ r = 14 then c.pc + t.linkOffset else c.regs x r
    spsr := Function.update c.spsr b c.cpsr
    cpsr := t.psr c.cpsr }

end Trap

/-! ### Blocks of words -/

theorem wordAt_inj {base : Word} {i j : ℕ} (hi : i < 2 ^ 30) (hj : j < 2 ^ 30)
    (h : wordAt base i = wordAt base j) : i = j := by
  have hnat := congrArg BitVec.toNat (BitVec.add_right_inj base |>.mp h)
  rw [BitVec.toNat_ofNat, BitVec.toNat_ofNat] at hnat
  omega

theorem wordAt_zero (base : Word) : wordAt base 0 = base := BitVec.add_zero base

theorem wordAt_wordAt (base : Word) (i j : ℕ) : wordAt (wordAt base i) j = wordAt base (i + j) := by
  rw [wordAt, wordAt, wordAt, BitVec.add_assoc, ← BitVec.ofNat_add, Nat.mul_add]

theorem storeBlock_other {m : Word → Word} {base a : Word} {f : ℕ → Word} {n : ℕ}
    (h : ∀ i < n, a ≠ wordAt base i) : storeBlock m base f n a = m a := by
  induction n with
  | zero => rfl
  | succ n ih =>
    rw [storeBlock, Function.update_of_ne (h n (Nat.lt_succ_self n))]
    exact ih fun i hi => h i (Nat.lt_succ_of_lt hi)

theorem storeBlock_at {m : Word → Word} {base : Word} {f : ℕ → Word} {n i : ℕ} (hn : n ≤ 2 ^ 30)
    (hi : i < n) : storeBlock m base f n (wordAt base i) = f i := by
  induction n with
  | zero => exact absurd hi (Nat.not_lt_zero i)
  | succ n ih =>
    rw [storeBlock]
    rcases Nat.lt_succ_iff_lt_or_eq.mp hi with hlt | rfl
    · rw [Function.update_of_ne fun h => Nat.ne_of_lt hlt (wordAt_inj (by omega) (by omega) h)]
      exact ih (by omega) hlt
    · exact Function.update_self _ _ _

theorem storeBlock_congr {m : Word → Word} {base : Word} {f g : ℕ → Word} {n : ℕ}
    (h : ∀ i < n, f i = g i) : storeBlock m base f n = storeBlock m base g n := by
  induction n with
  | zero => rfl
  | succ n ih =>
    rw [storeBlock, storeBlock, h n (Nat.lt_succ_self n), ih fun i hi => h i (Nat.lt_succ_of_lt hi)]

/-! ### Registers -/

@[simp] theorem run_nil (c : Cpu) : run [] c = c := rfl

@[simp] theorem run_cons (i : Cpu → Cpu) (code : List (Cpu → Cpu)) (c : Cpu) :
    run (i :: code) c = run code (i c) := rfl

theorem run_append (code code' : List (Cpu → Cpu)) (c : Cpu) :
    run (code ++ code') c = run code' (run code c) := List.foldl_append

namespace Cpu
variable {c : Cpu} {r r' : Fin 15} {v : Word}

@[simp] theorem set_pc : (c.set r v).pc = c.pc := rfl
@[simp] theorem set_cpsr : (c.set r v).cpsr = c.cpsr := rfl
@[simp] theorem set_spsr : (c.set r v).spsr = c.spsr := rfl
@[simp] theorem set_mem : (c.set r v).mem = c.mem := rfl
@[simp] theorem set_bank : (c.set r v).bank = c.bank := rfl

theorem get_set : (c.set r v).get r' = if r' = r then v else c.get r' := by
  by_cases h : r' = r
  · rw [h, if_pos rfl]
    exact if_pos ⟨rfl, rfl⟩
  · rw [if_neg h]
    exact if_neg fun hr => h hr.2

@[simp] theorem get_set_self : (c.set r v).get r = v := by
  rw [get_set, if_pos rfl]

theorem set_get_self (c : Cpu) (r : Fin 15) : c.set r (c.get r) = c := by
  have hregs : (fun b i => if b = slot c.bank r ∧ i = r then c.get r else c.regs b i) = c.regs := by
    funext b i
    split_ifs with h
    · rw [h.1, h.2]
      rfl
    · rfl
  exact congrArg (fun regs => ({ c with regs } : Cpu)) hregs

theorem slot_banked {b : Bank} (h : 13 ≤ r) : slot b r = b := by
  rw [slot, if_neg (by omega), if_neg (by omega)]

theorem slot_usr (r : Fin 15) : slot .usr r = .usr := by
  rw [slot, if_neg (show Bank.usr ≠ .fiq by decide), ite_self, ite_self]

theorem get_user (h : c.bank = .usr) : c.get r = c.user r := by
  rw [get, h, slot_usr]
  rfl

theorem slot_low (b : Bank) (h : r < 8) : slot b r = .usr := if_pos h

/-- r0 to r7 are the same registers in all modes. -/
theorem get_low (c : Cpu) (h : r < 8) : c.get r = c.regs .usr r := by rw [get, slot_low _ h]

/-- Without the registers for fast interrupts, r0 to r12 are. -/
theorem get_general (h : r < 13) (hfiq : c.bank ≠ .fiq) : c.get r = c.user r := by
  rw [get, slot]
  split_ifs <;> rfl

theorem get_banked (c : Cpu) (h : 13 ≤ r) : c.get r = c.regs c.bank r := by rw [get, slot_banked h]

/-- The stack pointers and link registers of other modes keep their values. -/
theorem regs_set_other {b : Bank} (hb : b ≠ c.bank) (hr' : 13 ≤ r') :
    (c.set r v).regs b r' = c.regs b r' := by
  refine if_neg ?_
  rintro ⟨hslot, rfl⟩
  exact hb (hslot.trans (slot_banked hr'))

/-- The registers of user mode keep their values when another bank is written. -/
theorem user_set (h : slot c.bank r ≠ .usr) : (c.set r v).user = c.user := by
  funext i
  exact if_neg fun hi => h hi.1.symm

end Cpu

section Stores
variable {rd rn : Fin 15} {k : ℕ} {c : Cpu}

@[simp] theorem str_get : (str rd rn k c).get = c.get := rfl
@[simp] theorem str_regs : (str rd rn k c).regs = c.regs := rfl
@[simp] theorem str_user : (str rd rn k c).user = c.user := rfl
@[simp] theorem str_cpsr : (str rd rn k c).cpsr = c.cpsr := rfl
@[simp] theorem str_spsr : (str rd rn k c).spsr = c.spsr := rfl
@[simp] theorem str_bank : (str rd rn k c).bank = c.bank := rfl
@[simp] theorem str_mem :
    (str rd rn k c).mem = Function.update c.mem (wordAt (c.get rn) k) (c.get rd) := rfl

@[simp] theorem stmUser_get : (stmUser rn c).get = c.get := rfl
@[simp] theorem stmUser_regs : (stmUser rn c).regs = c.regs := rfl
@[simp] theorem stmUser_user : (stmUser rn c).user = c.user := rfl
@[simp] theorem stmUser_cpsr : (stmUser rn c).cpsr = c.cpsr := rfl
@[simp] theorem stmUser_spsr : (stmUser rn c).spsr = c.spsr := rfl
@[simp] theorem stmUser_bank : (stmUser rn c).bank = c.bank := rfl
@[simp] theorem stmUser_mem : (stmUser rn c).mem =
    storeBlock c.mem (c.get rn) (fun i => c.user (Fin.ofNat 15 i)) 15 := rfl

end Stores

section Loads
variable {rn i : Fin 15} {c : Cpu} {a : Word}

theorem ldmUser_user : (ldmUser rn c).user i = c.mem (wordAt (c.get rn) i) :=
  congrFun (Function.update_self Bank.usr _ c.regs) i

theorem ldmUser_get (h : slot c.bank i ≠ .usr) : (ldmUser rn c).get i = c.get i :=
  congrFun (Function.update_of_ne h _ c.regs) i

theorem rfe_pc (h : c.get rn = a) : (rfe rn c).pc = c.mem a := by
  rw [← wordAt_zero a, ← h]
  rfl

theorem rfe_cpsr (h : c.get rn = a) : (rfe rn c).cpsr = c.mem (wordAt a 1) := by
  rw [← h]
  rfl

theorem ldmPc_get : (ldmPc rn c).get i = c.mem (wordAt (c.get rn) i) := if_pos rfl

end Loads

theorem mode_flagsAndControl (old v : Word) : mode (flagsAndControl old v) = mode v := by
  have hold : (0x00ffff00 : Word).extractLsb' 0 5 = 0#5 := rfl
  have hv : (0xff0000ff : Word).extractLsb' 0 5 = BitVec.allOnes 5 := rfl
  rw [mode, flagsAndControl, BitVec.extractLsb'_or, BitVec.extractLsb'_and, BitVec.extractLsb'_and, hold, hv,
    BitVec.and_zero, BitVec.zero_or, BitVec.and_allOnes]
  rfl

theorem flagsAndControl_back (old v : Word) : flagsAndControl (flagsAndControl old v) old = old := by
  have hmask : (0x00ffff00 : Word) = ~~~0xff0000ff := rfl
  refine BitVec.eq_of_getLsbD_eq fun i hi => ?_
  rw [flagsAndControl, flagsAndControl, hmask]
  generalize (0xff0000ff : Word) = mask
  simp only [BitVec.getLsbD_or, BitVec.getLsbD_and, BitVec.getLsbD_not, hi, decide_true, Bool.true_and]
  cases mask.getLsbD i <;> simp

theorem Trap.mode_psr (t : Trap) (cpsr : Word) : ArmCore.mode (t.psr cpsr) = t.mode := by
  have hmask : (~~~0x23f : Word).extractLsb' 0 5 = 0#5 := rfl
  rw [ArmCore.mode, psr, BitVec.extractLsb'_or, BitVec.extractLsb'_or, BitVec.extractLsb'_or,
    BitVec.extractLsb'_and, hmask, BitVec.and_zero, BitVec.zero_or]
  cases t <;> rfl

end ArmCore
