import EquivChecker.BitSetters
import EquivChecker.KernelMap

/-!
# Data faults of armed threads

The tracker is armed by making the program a client of the kernel's domain, and disarmed by
making it a manager again. The sections of the kernel are for privileged code, so accesses to
them fault at user level exactly while the tracker is armed.
-/

namespace EquivChecker.DataFaults

open BitField KernelMap PageTable

/-- `rw_tracker_enabled`, and the memory management unit. -/
structure Tracking where
  rw_tracker_enabled : Bool
  mmu : Mmu

section Code
variable (lib : BitSetters)

/-- Bits 2 and 3, which `user_dom` counts, are the field of domain 1. -/
def set_data_faults (enable : Bool) (m : Mmu) : Mmu :=
  let domain_acl := m.domain_access_ctrl
  let domain_acl :=
    if enable then lib.bits_set domain_acl user_dom.toNat (user_dom + 1).toNat DOM_client
    else lib.bits_set domain_acl user_dom.toNat (user_dom + 1).toNat DOM_manager
  domain_access_ctrl_set domain_acl m

def rw_tracker_arm (x : Tracking) : Tracking :=
  if x.rw_tracker_enabled then { x with mmu := set_data_faults lib true x.mmu } else x

def rw_tracker_disarm (x : Tracking) : Tracking := { x with mmu := set_data_faults lib false x.mmu }

/-- Handlers are left out. -/
def rw_tracker_init (enabled : Bool) (x : Tracking) : Tracking :=
  { rw_tracker_disarm lib x with rw_tracker_enabled := enabled }

def rw_tracker_enable (x : Tracking) : Tracking := { x with rw_tracker_enabled := true }

def rw_tracker_disable (x : Tracking) : Tracking :=
  { rw_tracker_disarm lib x with rw_tracker_enabled := false }

/-- How `rw_tracker_data_abort_handler` reads the fault status register: the value of `w`. -/
def fault_write (dfsr : Word) : Except Fault Word :=
  let status := lib.bit_isset dfsr 10 <<< 4 ||| lib.bits_get dfsr 0 3
  if status ≠ 0b01101 then .error (.panic "only section permission faults expected")
  else
    let domain := lib.bits_get dfsr 4 7
    if ¬domain ≠ user_dom then .error (.panic "we should never fault when accessing the user domain")
    else .ok (lib.bit_isset dfsr 11)

end Code

/-- What the permission bits of a section allow. -/
def permitted (APX : BitVec 1) (AP : BitVec 2) (privileged write : Bool) : Bool :=
  if APX = 0 then
    if AP = 0b00 then false
    else if AP = 0b01 then privileged
    else if AP = 0b10 then privileged || !write
    else true
  else if AP = 0b01 then privileged && !write
  else AP = 0b10 && !write

/-- The data fault status register, with the five bits of the status. -/
def fault_status (status : BitVec 5) (domain : BitVec 4) (write : Bool) : Word :=
  place 32 0 (status.setWidth 4) ||| place 32 4 domain ||| place 32 10 (status.extractLsb' 4 1) |||
    place 32 11 (BitVec.ofBool write)

/-- What a data access comes to. -/
inductive Outcome where
  | reaches (pa : Word)
  | faults (dfsr : Word)
  deriving DecidableEq, Repr

/-- A data access, as the memory management unit checks it against the descriptor of its section
and the access of the domain. -/
def access (m : Mmu) (privileged write : Bool) (va : Word) : Outcome :=
  if ¬mmu_is_enabled m then .reaches va
  else
    let e := Pte.unpack (m.tables.pt (sec va))
    if e.tag ≠ 0b10 then .faults (fault_status 0b00101 0 write)
    else
      let acl := domain_access m.domain_access_ctrl e.domain.toNat
      if acl = 0b11 ∨ (acl = 0b01 ∧ permitted e.APX e.AP privileged write) then
        .reaches (e.sec_base_addr.setWidth 32 <<< 20 ||| (va &&& 0xfffff))
      else if acl = 0b01 then .faults (fault_status 0b01101 e.domain write)
      else .faults (fault_status 0b01001 e.domain write)

/-- A call of one of the functions that change the tracker. -/
inductive Call where
  | init (enabled : Bool)
  | enable
  | disable
  | arm
  | disarm
  deriving DecidableEq, Repr

def Call.exec (lib : BitSetters) : Call → Tracking → Tracking
  | .init enabled => rw_tracker_init lib enabled
  | .enable => rw_tracker_enable
  | .disable => rw_tracker_disable lib
  | .arm => rw_tracker_arm lib
  | .disarm => rw_tracker_disarm lib

def execAll (lib : BitSetters) (calls : List Call) (x : Tracking) : Tracking :=
  calls.foldl (fun x c => c.exec lib x) x

/-- What the tracker is for: whether it may be armed, and whether it is. -/
structure Flags where
  enabled : Bool
  armed : Bool
  deriving DecidableEq, Repr

def Call.next : Call → Flags → Flags
  | .init enabled, _ => ⟨enabled, false⟩
  | .enable, f => ⟨true, f.armed⟩
  | .disable, _ => ⟨false, false⟩
  | .arm, f => ⟨f.enabled, f.enabled || f.armed⟩
  | .disarm, f => ⟨f.enabled, false⟩

def nextAll (calls : List Call) (f : Flags) : Flags := calls.foldl (fun f c => c.next f) f

/-- The tracker is in the state of the flags; `m` is the unit at the start. -/
structure Agrees (m : Mmu) (x : Tracking) (f : Flags) : Prop where
  enabled : x.rw_tracker_enabled = f.enabled
  tables : x.mmu.tables = m.tables
  on : mmu_is_enabled x.mmu = mmu_is_enabled m
  kern : domain_access x.mmu.domain_access_ctrl kern_dom.toNat = if f.armed then 0b01 else 0b11
  others : ∀ d < 16, d ≠ kern_dom.toNat →
    domain_access x.mmu.domain_access_ctrl d = domain_access m.domain_access_ctrl d

variable {lib : BitSetters} {getters : BitGetters} {p : Procmap} {m m₀ : Mmu} {x : Tracking} {f : Flags}
  {calls : List Call} {a : Word} {e : PrEnt}

/-- Only the access of the kernel's domain is set. -/
theorem set_data_faults_access (lib : BitSetters) (enable : Bool) (m : Mmu) {d : ℕ} (hd : d < 16) :
    domain_access (set_data_faults lib enable m).domain_access_ctrl d =
      if d = kern_dom.toNat then if enable then 0b01 else 0b11 else domain_access m.domain_access_ctrl d := by
  have hset : ∀ v : Word, v.toNat < 4 →
      domain_access (lib.bits_set m.domain_access_ctrl user_dom.toNat (user_dom + 1).toNat v) d =
        if d = kern_dom.toNat then v.setWidth 2 else domain_access m.domain_access_ctrl d := by
    intro v hv
    have hbits : user_dom.toNat = 2 ∧ (user_dom + 1).toNat = 3 ∧ kern_dom.toNat = 1 := by decide
    refine BitVec.eq_of_getLsbD_eq fun i hi => ?_
    rw [domain_access, BitVec.getLsbD_extractLsb', hbits.1, hbits.2.1, hbits.2.2,
      lib.bits_set_eq _ 2 3 v (by decide) (by decide) hv _ (by omega)]
    by_cases hkern : d = 1
    · rw [if_pos (by omega), if_pos hkern, show 2 * d + i - 2 = i by omega, BitVec.getLsbD_setWidth]
    · rw [if_neg (by omega), if_neg hkern, domain_access, BitVec.getLsbD_extractLsb']
  cases enable with
  | true => exact hset DOM_client (by decide)
  | false => exact hset DOM_manager (by decide)

/-- The unit is set for the new flags, whatever they were. -/
theorem Agrees.set (h : Agrees m x f) (lib : BitSetters) (enable : Bool) {b enabled : Bool} (hb : b = enabled) :
    Agrees m ⟨b, set_data_faults lib enable x.mmu⟩ ⟨enabled, enable⟩ where
  enabled := hb
  tables := h.tables
  on := h.on
  kern := (set_data_faults_access lib enable x.mmu (by decide)).trans (if_pos rfl)
  others d hd hne := ((set_data_faults_access lib enable x.mmu hd).trans (if_neg hne)).trans (h.others d hd hne)

theorem Agrees.exec (h : Agrees m x f) (lib : BitSetters) (c : Call) : Agrees m (c.exec lib x) (c.next f) := by
  cases c with
  | init enabled => exact h.set lib false rfl
  | enable => exact ⟨rfl, h.tables, h.on, h.kern, h.others⟩
  | disable => exact h.set lib false rfl
  | arm =>
    obtain ⟨enabled, mmu⟩ := x
    obtain ⟨enabled', armed⟩ := f
    cases h.enabled
    cases enabled with
    | true => exact h.set lib true rfl
    | false => exact ⟨rfl, h.tables, h.on, h.kern, h.others⟩
  | disarm => exact h.set lib false h.enabled

theorem Agrees.execAll (h : Agrees m x f) (lib : BitSetters) (calls : List Call) :
    Agrees m (execAll lib calls x) (nextAll calls f) := by
  induction calls generalizing x f with
  | nil => exact h
  | cons c calls ih => exact ih (h.exec lib c)

theorem fault_write_eq (lib : BitSetters) (dfsr : Word) : fault_write lib dfsr =
    if (if dfsr.getLsbD 10 then (1 : Word) else 0) <<< 4 ||| (dfsr.extractLsb' 0 4).setWidth 32 ≠ 0b01101 then
      .error (.panic "only section permission faults expected")
    else if ¬(dfsr.extractLsb' 4 4).setWidth 32 ≠ user_dom then
      .error (.panic "we should never fault when accessing the user domain")
    else .ok (if dfsr.getLsbD 11 then 1 else 0) := by
  rw [fault_write, lib.bit_isset_eq _ 10 (by decide), lib.bit_isset_eq _ 11 (by decide),
    lib.bits_get_eq _ 0 3 (by decide) (by decide), lib.bits_get_eq _ 4 7 (by decide) (by decide)]

/-- The handler accepts a permission fault of the kernel's domain, and finds out what was
attempted. -/
theorem fault_write_kern (lib : BitSetters) (write : Bool) :
    fault_write lib (fault_status 0b01101 (kern_dom.setWidth 4) write) = .ok (if write then 1 else 0) := by
  rw [fault_write_eq]
  cases write <;> decide

theorem fault_write_translation (lib : BitSetters) (write : Bool) :
    fault_write lib (fault_status 0b00101 0 write) =
      .error (.panic "only section permission faults expected") := by
  rw [fault_write_eq]
  cases write <;> decide

/-- The descriptor of a section that `vm_map_kernel` has mapped. -/
structure Privileged (w : Pte) (e : PrEnt) : Prop where
  tag : w.tag = 0b10
  domain : w.domain = e.dom.setWidth 4
  APX : w.APX = 0
  AP : w.AP = 0b01

theorem Privileged.of_decodes {w : Pte} (h : Decodes w e.pin) (hdom : e.dom.toNat < 16) : Privileged w e := by
  have hperm : w.APX.toNat * 4 + w.AP.toNat = 1 := h.perm (show perm_rw_priv.toNat < 8 by decide)
  have hdomain : w.domain.toNat = e.dom.toNat := h.domain hdom
  refine ⟨h.tag, BitVec.eq_of_toNat_eq ?_, BitVec.eq_of_toNat_eq ?_, BitVec.eq_of_toNat_eq ?_⟩
  · rw [hdomain, BitVec.toNat_setWidth]
    exact (Nat.mod_eq_of_lt hdom).symm
  · exact (show w.APX.toNat = 0 by omega)
  · exact (show w.AP.toNat = 1 by omega)

/-- An access to a section that is mapped to itself. -/
theorem access_mapped (hon : mmu_is_enabled m = true) (hdom : e.dom.toNat < 16)
    (hentry : Privileged (Pte.unpack (m.tables.pt (sec a))) e) (hxlate : vm_xlate m.tables a = some (sec a, a))
    (privileged write : Bool) : access m privileged write a =
      if domain_access m.domain_access_ctrl e.dom.toNat = 0b11 ∨
        (domain_access m.domain_access_ctrl e.dom.toNat = 0b01 ∧ privileged = true) then .reaches a
      else if domain_access m.domain_access_ctrl e.dom.toNat = 0b01 then
        .faults (fault_status 0b01101 (e.dom.setWidth 4) write)
      else .faults (fault_status 0b01001 (e.dom.setWidth 4) write) := by
  have hd : (e.dom.setWidth 4).toNat = e.dom.toNat := by
    rw [BitVec.toNat_setWidth]
    exact Nat.mod_eq_of_lt hdom
  have htag : (Pte.unpack (m.tables.pt (sec a))).tag ≠ 0 := by
    rw [hentry.tag]
    decide
  rw [vm_xlate_eq, if_neg htag] at hxlate
  have hpa := (Prod.mk.inj (Option.some.inj hxlate)).2
  have hpermitted : permitted 0 0b01 privileged write = privileged := rfl
  rw [access, if_neg (not_not.mpr hon)]
  dsimp only
  rw [if_neg (not_not.mpr hentry.tag), hentry.domain, hd, hentry.APX, hentry.AP, hpermitted, hpa]

theorem access_unmapped (hon : mmu_is_enabled m = true) (hxlate : vm_xlate m.tables a = none)
    (privileged write : Bool) : access m privileged write a = .faults (fault_status 0b00101 0 write) := by
  have htag : (Pte.unpack (m.tables.pt (sec a))).tag ≠ 0b10 := by
    intro htag
    rw [vm_xlate_eq, htag, if_neg (by decide)] at hxlate
    cases hxlate
  rw [access, if_neg (not_not.mpr hon)]
  exact if_pos htag

/-- The set has the domains of the entries, and that of the kernel. -/
structure Declared (p : Procmap) : Prop where
  kern : p.dom_ids.getLsbD kern_dom.toNat = true
  entries : ∀ e ∈ p.map, e.dom.toNat < 16 ∧ p.dom_ids.getLsbD e.dom.toNat = true

/-- The last entry of a map for the section of an address. -/
def Entry (p : Procmap) (a : Word) (e : PrEnt) : Prop :=
  ∃ l r, p.map = l ++ e :: r ∧ sec e.addr = sec a ∧ ∀ d ∈ r, sec d.addr ≠ sec a

/-- The program is a manager of the domain of an entry, unless that is the kernel's and the tracker
is armed. -/
theorem Agrees.access_entry (h : Agrees m x f) (hdom : e.dom.toNat < 16)
    (hmanager : ∀ d < 16, p.dom_ids.getLsbD d = true → domain_access m.domain_access_ctrl d = 0b11)
    (hdeclared : p.dom_ids.getLsbD e.dom.toNat = true) :
    domain_access x.mmu.domain_access_ctrl e.dom.toNat = if e.dom = kern_dom ∧ f.armed then 0b01 else 0b11 := by
  by_cases hkern : e.dom = kern_dom
  · rw [hkern, h.kern]
    cases f.armed <;> rfl
  · have hne : e.dom.toNat ≠ kern_dom.toNat := fun heq => hkern (BitVec.eq_of_toNat_eq heq)
    rw [h.others _ hdom hne, hmanager _ hdom hdeclared, if_neg fun hand => hkern hand.1]

/-- What the registers and the table say about the accesses to mapped sections. -/
theorem Agrees.access_eq (h : Agrees m x f) (hmapped : Mapped p true m) (hdeclared : Declared p)
    (hentry : Entry p a e) (privileged write : Bool) : access x.mmu privileged write a =
      if e.dom = kern_dom ∧ f.armed = true ∧ privileged = false then
        .faults (fault_status 0b01101 (kern_dom.setWidth 4) write)
      else .reaches a := by
  obtain ⟨l, r, hsplit, hsec, hr⟩ := hentry
  have hmem : e ∈ p.map := by
    rw [hsplit]
    exact List.mem_append_right _ List.mem_cons_self
  obtain ⟨hdom, hbit⟩ := hdeclared.entries e hmem
  have hprivileged := Privileged.of_decodes (hmapped.entry a l e r hsplit hsec hr) hdom
  have hxlate := hmapped.identity a ⟨e, hmem, hsec⟩
  have hacl := h.access_entry hdom (fun d hd hbit => (hmapped.access d hd).trans (if_pos hbit)) hbit
  rw [← h.tables] at hprivileged hxlate
  rw [access_mapped (h.on.trans hmapped.enabled) hdom hprivileged hxlate, hacl]
  by_cases harmed : e.dom = kern_dom ∧ f.armed = true
  · rw [if_pos harmed, harmed.1]
    cases privileged with
    | false => exact (if_pos ⟨rfl, harmed.2, rfl⟩).symm
    | true => exact (if_neg fun hand => absurd hand.2.2 (by decide)).symm
  · rw [if_neg harmed]
    exact (if_neg fun hand => harmed ⟨hand.1, hand.2.1⟩).symm

theorem Agrees.start (hmapped : Mapped p true m) (hdeclared : Declared p) (enabled : Bool) :
    Agrees m ⟨enabled, m⟩ ⟨enabled, false⟩ :=
  ⟨rfl, rfl, rfl, (hmapped.access kern_dom.toNat (by decide)).trans (if_pos hdeclared.kern), fun _ _ _ => rfl⟩

/-- After the kernel is mapped, whatever is called of the tracker: privileged accesses to mapped
sections never fault. Accesses of user level fault in the sections of the kernel's domain exactly
while the tracker is armed, and the handler accepts these faults and finds out whether they were
writes. Everywhere else only a missing entry makes an access fault, which the handler refuses. -/
theorem data_faults_exact (getters : BitGetters) (lib : BitSetters) (p : Procmap) (m₀ m : Mmu)
    (enabled : Bool) (calls : List Call) (hdeclared : Declared p)
    (hmap : vm_map_kernel getters p true m₀ = .ok m) :
    (∀ a e, Entry p a e → ∀ write,
      access (execAll lib calls ⟨enabled, m⟩).mmu true write a = .reaches a ∧
      (¬(e.dom = kern_dom ∧ (nextAll calls ⟨enabled, false⟩).armed = true) →
        access (execAll lib calls ⟨enabled, m⟩).mmu false write a = .reaches a) ∧
      (e.dom = kern_dom ∧ (nextAll calls ⟨enabled, false⟩).armed = true → ∃ dfsr,
        access (execAll lib calls ⟨enabled, m⟩).mmu false write a = .faults dfsr ∧
        fault_write lib dfsr = .ok (if write then 1 else 0))) ∧
    ∀ a, (∀ e ∈ p.map, sec e.addr ≠ sec a) → ∀ privileged write, ∃ dfsr,
      access (execAll lib calls ⟨enabled, m⟩).mmu privileged write a = .faults dfsr ∧
      fault_write lib dfsr = .error (.panic "only section permission faults expected") := by
  have hmapped := Mapped.of_vm_map_kernel hmap
  have hagrees := (Agrees.start hmapped hdeclared enabled).execAll lib calls
  constructor
  · intro a e hentry write
    have haccess := hagrees.access_eq hmapped hdeclared hentry
    refine ⟨?_, fun hfree => ?_, fun harmed => ⟨_, ?_, fault_write_kern lib write⟩⟩
    · exact (haccess true write).trans (if_neg fun hand => absurd hand.2.2 (by decide))
    · exact (haccess false write).trans (if_neg fun hand => hfree ⟨hand.1, hand.2.1⟩)
    · exact (haccess false write).trans (if_pos ⟨harmed.1, harmed.2, rfl⟩)
  · intro a ha privileged write
    have hxlate := hmapped.rest a ha
    rw [← hagrees.tables] at hxlate
    exact ⟨_, access_unmapped (hagrees.on.trans hmapped.enabled) hxlate privileged write,
      fault_write_translation lib write⟩

/-- The default map: the stack of user level is in the kernel's domain, its code is not. -/
theorem data_faults_exact_armed : ∃ p m x,
    procmap_default_mk ⟨MB, MB, MB + MB, 0x9000000, 0x8000000⟩ kern_dom user_dom = .ok p ∧
      vm_map_kernel libpi p true ⟨0, 0, 0, ⟨fun _ => 0, fun _ => 0⟩⟩ = .ok m ∧
      execAll .libpi [.init false, .enable, .arm] ⟨false, m⟩ = x ∧
      access x.mmu false false 0x300010 = .reaches 0x300010 ∧
      ∃ dfsr, access x.mmu false true 0x7ffffc0 = .faults dfsr ∧ fault_write .libpi dfsr = .ok 1 := by
  have hp := procmap_default_mk_eq (l := ⟨MB, MB, MB + MB, 0x9000000, 0x8000000⟩) ⟨by decide, rfl, rfl⟩
  have hmappable : Mappable ⟨0b110, default_entries ⟨MB, MB, MB + MB, 0x9000000, 0x8000000⟩ kern_dom user_dom⟩
    ⟨0, 0, 0, ⟨fun _ => 0, fun _ => 0⟩⟩ := default_mappable (by decide) (by decide) rfl
  obtain ⟨m, hrun⟩ := (@vm_map_kernel_ok_iff libpi _ _ true).mpr hmappable
  have hdeclared : Declared ⟨0b110, default_entries ⟨MB, MB, MB + MB, 0x9000000, 0x8000000⟩ kern_dom user_dom⟩ :=
    ⟨by decide, by decide⟩
  have hfaults := data_faults_exact libpi .libpi _ _ m false [.init false, .enable, .arm] hdeclared hrun
  refine ⟨_, m, _, hp, hrun, rfl, (hfaults.1 0x300010 ⟨0x300000, MB, MEM_RW, user_dom⟩ ?_ false).2.1 (by decide),
    (hfaults.1 0x7ffffc0 ⟨0x8000000 - MB, MB, MEM_RW, kern_dom⟩ ?_ true).2.2 ⟨rfl, rfl⟩⟩
  · exact ⟨[_, _, _], [_, _, _, _], rfl, by decide, by decide⟩
  · exact ⟨[_, _, _, _, _, _, _], [], rfl, by decide, by decide⟩

end EquivChecker.DataFaults
