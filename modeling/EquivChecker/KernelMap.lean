import EquivChecker.PageTable

/-!
# The kernel map

`vm_map_kernel` maps every section of a process map to itself, for privileged code, and makes
the program a manager of all its domains. The default map of the checker has the kernel's
sections in one domain and the section of user code in another.
-/

namespace EquivChecker.KernelMap

open PageTable

def MB : Word := 1024 * 1024

def MEM_DEVICE : ℕ := 0
def MEM_RW : ℕ := 1
def MEM_RO : ℕ := 2

structure PrEnt where
  addr : Word
  nbytes : Word
  type : ℕ
  dom : Word
  deriving DecidableEq, Repr

/-- `procmap_t`; `n` is the length of the map. -/
structure Procmap where
  dom_ids : Word
  map : List PrEnt
  deriving DecidableEq, Repr

def MAX_ENT : ℕ := 8

def kern_dom : Word := 1
def user_dom : Word := 2

def perm_rw_user : Word := 0b011
def perm_ro_user : Word := 0b010
def perm_ro_priv : Word := 0b101
def perm_rw_priv : Word := 0b001
def perm_na_priv : Word := 0b000

def DOM_client : Word := 0b01
def DOM_manager : Word := 0b11

def MEM_device : Word := 0b00000
def MEM_uncached : Word := 0b00100

section Code

def pr_ent_mk (addr nbytes : Word) (type : ℕ) (dom : Word) : Except Fault PrEnt :=
  if nbytes ≠ 1024 * 1024 then .error (.panic "only doing sections first")
  else if ¬dom.toNat < 16 then .error (.panic "illegal domain %d\n")
  else .ok ⟨addr, nbytes, type, dom⟩

def procmap_push (p : Procmap) (e : PrEnt) : Except Fault Procmap :=
  if ¬p.map.length < MAX_ENT then .error (.panic "p->n < MAX_ENT")
  else if ¬e.dom.toNat < 16 then .error (.panic "e.dom < 16")
  else .ok ⟨p.dom_ids ||| (1 : Word) <<< e.dom.toNat, p.map ++ [e]⟩

/-- The loop of `dom_perm`, for the domains still to come. -/
def dom_perm_loop (doms perm : Word) : List ℕ → Word → Word
  | [], mask => mask
  | i :: todo, mask =>
    dom_perm_loop doms perm todo (if doms &&& (1 : Word) <<< i ≠ 0 then mask ||| perm <<< (i * 2) else mask)

def dom_perm (doms perm : Word) : Except Fault Word :=
  if doms = 0 then .error (.panic "doms")
  else if doms >>> 16 ≠ 0 then .error (.panic "doms >> 16 == 0")
  else if ¬perm.toNat ≤ 0b11 then .error (.panic "perm <= 0b11")
  else .ok (dom_perm_loop doms perm (List.range 16) 0)

/-- What the program and libpi say about the layout of memory. -/
structure Layout where
  prog_end : Word
  heap_start : Word
  heap_end : Word
  INT_STACK_ADDR : Word
  STACK_ADDR : Word

def push_all (p : Procmap) : List (Word × ℕ × Word) → Except Fault Procmap
  | [] => .ok p
  | (addr, type, dom) :: todo => do
    let e ← pr_ent_mk addr MB type dom
    push_all (← procmap_push p e) todo

def procmap_default_mk (l : Layout) (dom dom2 : Word) : Except Fault Procmap := do
  let p ← push_all ⟨0, []⟩ [(0x20000000, MEM_DEVICE, dom), (0x20100000, MEM_DEVICE, dom),
    (0x20200000, MEM_DEVICE, dom), (0x300000, MEM_RW, dom2)]
  if ¬l.prog_end.toNat ≤ MB.toNat then .error (.panic "(uint32_t)__prog_end__ <= MB")
  else
    let p ← push_all p [(0x00000000, MEM_RW, dom)]
    if l.heap_start ≠ MB then .error (.panic "sanity check that heap starts at 1mb failed: %p\n")
    else if l.heap_end - l.heap_start ≠ MB then .error (.panic "nbytes = %d\n")
    else push_all p [(0x00100000, MEM_RW, dom), (l.INT_STACK_ADDR - MB, MEM_RW, dom),
      (l.STACK_ADDR - MB, MEM_RW, dom)]

def mem_perm_islegal (p : Word) : Except Fault Unit :=
  if p = perm_rw_user ∨ p = perm_ro_user ∨ p = perm_ro_priv ∨ p = perm_rw_priv ∨ p = perm_na_priv then .ok ()
  else .error (.panic "illegal permission: %b\n")

def pin_mk (G dom asid perm mem_attr : Word) : Except Fault Pin := do
  mem_perm_islegal perm
  if ¬dom.toNat ≤ 16 then .error (.panic "illegal domain id")
  else if G ≠ 0 ∧ asid ≠ 0 then .error (.panic "should not have a non-zero asid: %d")
  else if G = 0 ∧ asid = 0 then .error (.panic "should have non-zero asid")
  else if G = 0 ∧ ¬asid.toNat < 64 then .error (.panic "invalid asid")
  else .ok ⟨G, dom, PAGE_1MB, perm, mem_attr⟩

def pin_mk_device (dom : Word) : Except Fault Pin := pin_mk 1 dom 0 perm_rw_priv MEM_device

def pin_mk_global (dom perm attr : Word) : Except Fault Pin := pin_mk 1 dom 0 perm attr

/-- The default attribute for each type, as in the loop of `vm_map_kernel`. -/
def attr_mk (e : PrEnt) : Except Fault Pin :=
  if e.type = MEM_DEVICE then pin_mk_device e.dom
  else if e.type = MEM_RW then pin_mk_global e.dom perm_rw_priv MEM_uncached
  else if e.type = MEM_RO then .error (.panic "not handling\n")
  else .error (.panic "unknown type: %d\n")

/-- The registers of the memory management unit, and the page table in use. -/
structure Mmu where
  control_reg1 : Word
  domain_access_ctrl : Word
  procid : Word
  tables : Tables

def mmu_is_enabled (m : Mmu) : Bool := m.control_reg1.getLsbD 0

/-- Caches and write buffers are not modelled, so the assembly routine only sets registers. -/
def set_procid_ttbr0 (pid asid : Word) (t : Tables) (m : Mmu) : Except Fault Mmu :=
  if pid >>> 24 ≠ 0 then .error (.panic "(pid >> 24) == 0")
  else if ¬64 < pid.toNat then .error (.panic "pid > 64")
  else if ¬(asid.toNat < 64 ∧ asid ≠ 0) then .error (.panic "asid < 64 && asid")
  else .ok { m with procid := pid <<< 8 ||| asid, tables := t }

def mmu_set_ctx (pid asid : Word) (t : Tables) (m : Mmu) : Except Fault Mmu :=
  if asid = 0 then .error (.panic "asid!=0")
  else if ¬asid.toNat < 64 then .error (.panic "asid<64")
  else if ¬64 < pid.toNat then .error (.panic "pid>64")
  else set_procid_ttbr0 pid asid t m

def mmu_init (m : Mmu) : Except Fault Mmu :=
  let m := { m with control_reg1 := m.control_reg1 ||| (1 : Word) <<< 23 }
  if ¬m.control_reg1.getLsbD 23 then .error (.panic "c1.XP_pt")
  else if m.control_reg1.getLsbD 0 then .error (.panic "!c1.MMU_enabled")
  else .ok m

def domain_access_ctrl_set (d : Word) (m : Mmu) : Mmu := { m with domain_access_ctrl := d }

def vm_mmu_init (domain_reg : Word) (m : Mmu) : Except Fault Mmu := do
  .ok (domain_access_ctrl_set domain_reg (← mmu_init m))

def mmu_enable (m : Mmu) : Except Fault Mmu :=
  if m.control_reg1.getLsbD 0 then .error (.panic "!c.MMU_enabled")
  else
    let c := m.control_reg1 ||| 1
    if ¬c.getLsbD 0 then .error (.panic "c.MMU_enabled") else .ok { m with control_reg1 := c }

def vm_mmu_enable (m : Mmu) : Except Fault Mmu :=
  if mmu_is_enabled m then .error (.panic "!mmu_is_enabled()")
  else do
    let m ← mmu_enable m
    if ¬mmu_is_enabled m then .error (.panic "mmu_is_enabled()") else .ok m

/-- The loop of `vm_map_kernel`. -/
def map_entries (lib : BitGetters) : List PrEnt → Tables → Except Fault Tables
  | [], t => .ok t
  | e :: es, t =>
    if e.nbytes ≠ MB then .error (.panic "nbytes=%d\n")
    else do
      let g ← attr_mk e
      let (_, t) ← vm_map_sec lib e.addr e.addr g t
      map_entries lib es t

def kern_asid : Word := 1
def kern_pid : Word := 0x140e

/-- The new table is full of zeros; the list of taken pages is kept. -/
def vm_map_kernel (lib : BitGetters) (p : Procmap) (enable_p : Bool) (m : Mmu) : Except Fault Mmu := do
  let m ← mmu_set_ctx kern_pid kern_asid ⟨fun _ => 0, m.tables.taken_list⟩ m
  let t ← map_entries lib p.map m.tables
  let d ← dom_perm p.dom_ids DOM_manager
  let m ← vm_mmu_init d { m with tables := t }
  if enable_p then vm_mmu_enable m else .ok m

end Code

/-- A section that `vm_map_kernel` can map. -/
structure PrEnt.Legal (e : PrEnt) : Prop where
  addr : aligned e.addr OneMB
  nbytes : e.nbytes = MB
  type : e.type = MEM_DEVICE ∨ e.type = MEM_RW
  dom : e.dom.toNat ≤ 16

/-- The attributes of a mapped section: global, for privileged code only. -/
def PrEnt.pin (e : PrEnt) : Pin :=
  ⟨1, e.dom, PAGE_1MB, perm_rw_priv, if e.type = MEM_DEVICE then MEM_device else MEM_uncached⟩

/-- A section is mapped to itself. -/
def PrEnt.mapping (e : PrEnt) : Mapping := ⟨e.addr, e.addr, e.pin⟩

variable {lib : BitGetters} {e : PrEnt} {es : List PrEnt} {t t' : Tables} {p : Procmap} {m m' : Mmu}
  {a : Word}

theorem pin_mk_global_dom (dom mem_attr : Word) : pin_mk 1 dom 0 perm_rw_priv mem_attr =
    if ¬dom.toNat ≤ 16 then .error (.panic "illegal domain id")
    else .ok ⟨1, dom, PAGE_1MB, perm_rw_priv, mem_attr⟩ := rfl

theorem PrEnt.Legal.attr_mk_eq (h : e.Legal) : attr_mk e = .ok e.pin := by
  unfold attr_mk pin_mk_device pin_mk_global PrEnt.pin
  rw [pin_mk_global_dom, pin_mk_global_dom, if_neg (not_not.mpr h.dom), if_neg (not_not.mpr h.dom)]
  rcases h.type with htype | htype
  · rw [if_pos htype, if_pos htype]
  · rw [htype]
    rfl

theorem attr_mk_ok {g : Pin} (h : attr_mk e = .ok g) :
    (e.type = MEM_DEVICE ∨ e.type = MEM_RW) ∧ e.dom.toNat ≤ 16 := by
  unfold attr_mk pin_mk_device pin_mk_global at h
  rw [pin_mk_global_dom, pin_mk_global_dom] at h
  split_ifs at h with hdevice hdom hrw hdom
  · exact ⟨.inl hdevice, hdom⟩
  · exact ⟨.inr hrw, hdom⟩

theorem PrEnt.Legal.mapping (h : e.Legal) : e.mapping.Legal := ⟨h.addr, h.addr, rfl⟩

theorem map_entries_eq (h : ∀ e ∈ es, e.Legal) (t : Tables) :
    map_entries lib es t = map_all lib (es.map PrEnt.mapping) t := by
  induction es generalizing t with
  | nil => rfl
  | cons e es ih =>
    rw [List.forall_mem_cons] at h
    have hmap := @vm_map_sec_eq lib _ h.1.mapping t
    rw [map_entries, if_neg (not_not.mpr h.1.nbytes), h.1.attr_mk_eq, List.map_cons, map_all]
    change (vm_map_sec lib e.mapping.va e.mapping.pa e.mapping.attr t >>= _) = _
    rw [hmap]
    exact ih h.2 _

theorem map_entries_ok_iff : (∃ t', map_entries lib es t = .ok t') ↔ ∀ e ∈ es, e.Legal := by
  constructor
  · rintro ⟨t', hrun⟩
    induction es generalizing t with
    | nil => exact fun e he => absurd he List.not_mem_nil
    | cons e es ih =>
      rw [map_entries] at hrun
      split_ifs at hrun with hbytes
      obtain ⟨g, hg, hrun⟩ := bind_ok_iff.mp hrun
      obtain ⟨r, hr, hrun⟩ := bind_ok_iff.mp hrun
      obtain ⟨htype, hdom⟩ := attr_mk_ok hg
      have hc : (⟨e.addr, e.addr, g⟩ : Mapping).Legal := .of_vm_map_sec hr
      exact List.forall_mem_cons.mpr ⟨⟨hc.va, not_not.mp hbytes, htype, hdom⟩, ih hrun⟩
  · intro h
    rw [map_entries_eq h]
    exact map_all_ok_iff.mpr fun c hc => by
      obtain ⟨e, he, rfl⟩ := List.mem_map.mp hc
      exact (h e he).mapping

theorem mappings_legal (h : ∀ e ∈ es, e.Legal) : ∀ c ∈ es.map PrEnt.mapping, c.Legal := by
  intro c hc
  obtain ⟨e, he, rfl⟩ := List.mem_map.mp hc
  exact (h e he).mapping

/-- Sections without an entry stay unmapped. -/
theorem map_entries_rest (h : ∀ e ∈ es, e.Legal) {taken_list : ℕ → BitVec 8}
    (hrun : map_entries lib es ⟨fun _ => 0, taken_list⟩ = .ok t) (ha : ∀ e ∈ es, sec e.addr ≠ sec a) :
    t.pt (sec a) = 0 := by
  rw [map_entries_eq h] at hrun
  obtain ⟨t', hrun', hkept⟩ := @map_all_spec lib _ (mappings_legal h) ⟨fun _ => 0, taken_list⟩
  have ht : t = t' := Except.ok.inj (hrun.symm.trans hrun')
  rw [ht, hkept a fun c hc => ?_]
  obtain ⟨e, he, rfl⟩ := List.mem_map.mp hc
  exact ha e he

/-- The last entry for a section counts. -/
theorem map_entries_last {l r : List PrEnt} (h : ∀ d ∈ l ++ e :: r, d.Legal)
    (hrun : map_entries lib (l ++ e :: r) t = .ok t') (hsec : sec e.addr = sec a)
    (hr : ∀ d ∈ r, sec d.addr ≠ sec a) : t'.pt (sec a) = (section_entry lib e.addr e.pin).pack := by
  rw [map_entries_eq h, List.map_append, List.map_cons] at hrun
  rw [List.forall_mem_append, List.forall_mem_cons] at h
  have hunmapped : Unmapped (r.map PrEnt.mapping) a := by
    intro c hc
    obtain ⟨d, hd, rfl⟩ := List.mem_map.mp hc
    exact hr d hd
  have hsec' : sec e.mapping.va = sec a := hsec
  have hlast := map_all_last (mappings_legal h.1) h.2.1.mapping (mappings_legal h.2.2) hsec' hunmapped hrun
  exact hlast

theorem exists_last_entry (h : ∃ e ∈ es, sec e.addr = sec a) :
    ∃ l e r, es = l ++ e :: r ∧ sec e.addr = sec a ∧ ∀ d ∈ r, sec d.addr ≠ sec a := by
  induction es with
  | nil => exact absurd h fun ⟨_, he, _⟩ => absurd he List.not_mem_nil
  | cons d es ih =>
    by_cases hrest : ∃ e ∈ es, sec e.addr = sec a
    · obtain ⟨l, e, r, rfl, hsec, hr⟩ := ih hrest
      exact ⟨d :: l, e, r, rfl, hsec, hr⟩
    · obtain ⟨e, he, hsec⟩ := h
      rcases List.mem_cons.mp he with rfl | he
      · exact ⟨[], e, es, rfl, hsec, fun d hd heq => hrest ⟨d, hd, heq⟩⟩
      · exact absurd ⟨e, he, hsec⟩ hrest

/-- A section that is mapped to itself keeps every address. -/
theorem vm_xlate_identity {b : Word} {g : Pin} (hb : aligned b OneMB) (hsec : sec b = sec a)
    (h : t.pt (sec a) = (section_entry lib b g).pack) : vm_xlate t a = some (sec a, a) := by
  have htag : (section_entry lib b g).tag ≠ 0 := by
    change (0b10 : BitVec 2) ≠ 0
    decide
  have hbase : (section_entry lib b g).sec_base_addr.setWidth 32 <<< 20 ||| (a &&& 0xfffff) =
    b + (a &&& 0xfffff) := section_address hb a
  have hb' : b.toNat % 2 ^ 20 = 0 := hb
  have hlow : (a &&& 0xfffff).toNat = a.toNat % 2 ^ 20 := by
    rw [BitVec.toNat_and]
    exact Nat.and_two_pow_sub_one_eq_mod _ 20
  rw [vm_xlate_eq, h, Pte.unpack_pack, if_neg htag, hbase]
  rw [sec_eq, sec_eq] at hsec
  have hsum : b + (a &&& 0xfffff) = a := by
    refine BitVec.eq_of_toNat_eq ?_
    have := a.isLt
    rw [BitVec.toNat_add, hlow]
    omega
  rw [hsum]

theorem and_one_shiftLeft (w : Word) {i : ℕ} (hi : i < 32) : w &&& (1 : Word) <<< i ≠ 0 ↔ w.getLsbD i = true := by
  have hone : (1 : Word) <<< i = BitVec.twoPow 32 i := (BitVec.twoPow_eq 32 i).symm
  rw [hone, BitVec.and_twoPow]
  cases w.getLsbD i with
  | false => simp
  | true =>
    rw [if_pos rfl]
    refine iff_of_true (fun h => ?_) rfl
    have hbit : (BitVec.twoPow 32 i).getLsbD i = true := by
      rw [BitVec.getLsbD_twoPow]
      simp [hi]
    rw [h] at hbit
    exact absurd hbit (by simp)

theorem perm_shifted {perm : Word} (hperm : perm.toNat ≤ 0b11) (d : ℕ) {i : ℕ} (hi : i < 32) :
    (perm <<< (d * 2)).getLsbD i = (decide (i / 2 = d) && perm.getLsbD (i % 2)) := by
  rw [BitVec.getLsbD_shiftLeft, decide_eq_true hi, Bool.true_and]
  rcases Nat.lt_trichotomy (i / 2) d with h | h | h
  · rw [decide_eq_true (by omega), decide_eq_false (by omega)]
    rfl
  · rw [decide_eq_false (by omega), decide_eq_true h, show i - d * 2 = i % 2 by omega]
    rfl
  · have hout : perm.getLsbD (i - d * 2) = false :=
      Nat.testBit_lt_two_pow (lt_of_lt_of_le (Nat.lt_succ_of_le hperm)
        (Nat.pow_le_pow_right Nat.two_pos (show 2 ≤ i - d * 2 by omega)))
    rw [hout, Bool.and_false, decide_eq_false (by omega), Bool.false_and]

/-- What the loop has set, bit by bit. -/
theorem dom_perm_loop_bit {doms perm mask : Word} (hperm : perm.toNat ≤ 0b11) {todo : List ℕ}
    (htodo : ∀ d ∈ todo, d < 16) {i : ℕ} (hi : i < 32) :
    (dom_perm_loop doms perm todo mask).getLsbD i =
      (mask.getLsbD i || (decide (i / 2 ∈ todo) && doms.getLsbD (i / 2) && perm.getLsbD (i % 2))) := by
  induction todo generalizing mask with
  | nil => simp [dom_perm_loop]
  | cons d todo ih =>
    rw [List.forall_mem_cons] at htodo
    have hbit := and_one_shiftLeft doms (show d < 32 by omega)
    have hmask : (if doms &&& (1 : Word) <<< d ≠ 0 then mask ||| perm <<< (d * 2) else mask).getLsbD i =
        (mask.getLsbD i || (doms.getLsbD d && (decide (i / 2 = d) && perm.getLsbD (i % 2)))) := by
      cases hd : doms.getLsbD d with
      | false =>
        rw [if_neg (by rw [hbit, hd]; decide), Bool.false_and, Bool.or_false]
      | true =>
        rw [if_pos (hbit.mpr hd), BitVec.getLsbD_or, perm_shifted hperm d hi, Bool.true_and]
    rw [dom_perm_loop, ih htodo.2, hmask, Bool.or_assoc]
    congr 1
    by_cases hd : i / 2 = d
    · rw [hd]
      cases doms.getLsbD d <;> cases perm.getLsbD (i % 2) <;> simp
    · simp [hd]

/-- The access of a domain in the domain access control register. -/
def domain_access (acl : Word) (d : ℕ) : BitVec 2 := acl.extractLsb' (2 * d) 2

/-- Domains of the set get the permission, the others none. -/
theorem dom_perm_access {doms perm mask : Word} (h : dom_perm doms perm = .ok mask) {d : ℕ} (hd : d < 16) :
    domain_access mask d = if doms.getLsbD d then perm.setWidth 2 else 0 := by
  unfold dom_perm at h
  split_ifs at h with hzero hhigh hperm
  cases h
  refine BitVec.eq_of_getLsbD_eq fun i hi => ?_
  rw [domain_access, BitVec.getLsbD_extractLsb', decide_eq_true hi, Bool.true_and,
    dom_perm_loop_bit hperm (fun d h => List.mem_range.mp h) (by omega),
    show (2 * d + i) / 2 = d by omega, show (2 * d + i) % 2 = i by omega,
    decide_eq_true (List.mem_range.mpr hd), Bool.true_and]
  cases doms.getLsbD d with
  | false => simp
  | true => simp [hi]

theorem dom_perm_manager_ok_iff {doms : Word} :
    (∃ mask, dom_perm doms DOM_manager = .ok mask) ↔ doms ≠ 0 ∧ doms >>> 16 = 0 := by
  unfold dom_perm
  split_ifs with hzero hhigh hperm
  · exact iff_of_false (fun ⟨_, h⟩ => nomatch h) fun h => h.1 hzero
  · exact iff_of_false (fun ⟨_, h⟩ => nomatch h) fun h => hhigh h.2
  · exact iff_of_true ⟨_, rfl⟩ ⟨hzero, not_not.mp hhigh⟩
  · exact absurd (by decide) hperm

theorem getLsbD_or_one (c : Word) : (c ||| 1).getLsbD 0 = true := by
  rw [BitVec.getLsbD_or]
  exact Bool.or_true _

theorem mmu_init_bit (c : Word) : (c ||| (1 : Word) <<< 23).getLsbD 0 = c.getLsbD 0 := by
  rw [BitVec.getLsbD_or]
  exact Bool.or_false _

theorem mmu_init_eq (m : Mmu) : mmu_init m = if mmu_is_enabled m then .error (.panic "!c1.MMU_enabled")
    else .ok { m with control_reg1 := m.control_reg1 ||| (1 : Word) <<< 23 } := by
  have hset : (m.control_reg1 ||| (1 : Word) <<< 23).getLsbD 23 = true := by
    rw [BitVec.getLsbD_or]
    exact Bool.or_true _
  unfold mmu_init
  dsimp only
  rw [hset, mmu_init_bit, if_neg (by decide)]
  rfl

theorem vm_mmu_init_on {d : Word} (h : mmu_is_enabled m = true) :
    vm_mmu_init d m = .error (.panic "!c1.MMU_enabled") := by
  rw [vm_mmu_init, mmu_init_eq, if_pos h]
  rfl

theorem vm_mmu_init_off {d : Word} (h : mmu_is_enabled m = false) : vm_mmu_init d m =
    .ok { m with control_reg1 := m.control_reg1 ||| (1 : Word) <<< 23, domain_access_ctrl := d } := by
  rw [vm_mmu_init, mmu_init_eq, h, if_neg Bool.false_ne_true]
  rfl

/-- The unit after it is turned on. -/
def Mmu.enabled (m : Mmu) : Mmu := { m with control_reg1 := m.control_reg1 ||| 1 }

theorem mmu_is_enabled_enabled (m : Mmu) : mmu_is_enabled m.enabled = true :=
  getLsbD_or_one m.control_reg1

theorem vm_mmu_enable_eq (h : mmu_is_enabled m = false) : vm_mmu_enable m = .ok m.enabled := by
  have hoff : ¬m.control_reg1.getLsbD 0 = true := Bool.eq_false_iff.mp h
  have hrun : mmu_enable m = .ok m.enabled := by
    rw [mmu_enable, if_neg hoff]
    dsimp only
    rw [getLsbD_or_one, if_neg (by decide)]
    rfl
  rw [vm_mmu_enable, h, if_neg Bool.false_ne_true, hrun]
  change (if ¬mmu_is_enabled m.enabled = true then _ else _) = _
  rw [mmu_is_enabled_enabled, if_neg (by decide)]

/-- The unit before it is turned on. -/
def kernel_unit (t : Tables) (d : Word) (m : Mmu) : Mmu where
  control_reg1 := m.control_reg1 ||| (1 : Word) <<< 23
  domain_access_ctrl := d
  procid := kern_pid <<< 8 ||| kern_asid
  tables := t

theorem mmu_is_enabled_kernel_unit (t : Tables) (d : Word) (m : Mmu) :
    mmu_is_enabled (kernel_unit t d m) = mmu_is_enabled m :=
  mmu_init_bit m.control_reg1

theorem vm_map_kernel_eq (lib : BitGetters) (p : Procmap) (enable_p : Bool) (m : Mmu) :
    vm_map_kernel lib p enable_p m =
      (map_entries lib p.map ⟨fun _ => 0, m.tables.taken_list⟩ >>= fun t =>
        dom_perm p.dom_ids DOM_manager >>= fun d =>
          if mmu_is_enabled m then .error (.panic "!c1.MMU_enabled")
          else .ok (if enable_p then (kernel_unit t d m).enabled else kernel_unit t d m)) := by
  unfold vm_map_kernel
  refine congrArg (map_entries lib p.map ⟨fun _ => 0, m.tables.taken_list⟩ >>= ·) (funext fun t => ?_)
  refine congrArg (dom_perm p.dom_ids DOM_manager >>= ·) (funext fun d => ?_)
  cases hon : mmu_is_enabled m with
  | true =>
    rw [vm_mmu_init_on (by exact hon)]
    rfl
  | false =>
    rw [vm_mmu_init_off (by exact hon), if_neg Bool.false_ne_true]
    cases enable_p with
    | false => rfl
    | true => exact vm_mmu_enable_eq ((mmu_is_enabled_kernel_unit t d m).trans hon)

theorem vm_map_kernel_ok {enable_p : Bool} : vm_map_kernel lib p enable_p m = .ok m' ↔
    ∃ t d, map_entries lib p.map ⟨fun _ => 0, m.tables.taken_list⟩ = .ok t ∧
      dom_perm p.dom_ids DOM_manager = .ok d ∧ mmu_is_enabled m = false ∧
      (if enable_p then (kernel_unit t d m).enabled else kernel_unit t d m) = m' := by
  rw [vm_map_kernel_eq, bind_ok_iff]
  refine exists_congr fun t => ?_
  rw [bind_ok_iff]
  constructor
  · rintro ⟨ht, d, hd, hrun⟩
    cases hon : mmu_is_enabled m with
    | true =>
      rw [hon] at hrun
      cases hrun
    | false =>
      rw [hon] at hrun
      exact ⟨d, ht, hd, rfl, Except.ok.inj hrun⟩
  · rintro ⟨d, ht, hd, hon, rfl⟩
    refine ⟨ht, d, hd, ?_⟩
    rw [hon, if_neg Bool.false_ne_true]

/-- The process maps that can be mapped, while the unit is off. -/
structure Mappable (p : Procmap) (m : Mmu) : Prop where
  legal : ∀ e ∈ p.map, e.Legal
  dom_ids : p.dom_ids ≠ 0 ∧ p.dom_ids >>> 16 = 0
  off : mmu_is_enabled m = false

/-- What holds of the unit after the map is made. -/
structure Mapped (p : Procmap) (enable_p : Bool) (m : Mmu) : Prop where
  identity : ∀ a, (∃ e ∈ p.map, sec e.addr = sec a) → vm_xlate m.tables a = some (sec a, a)
  rest : ∀ a, (∀ e ∈ p.map, sec e.addr ≠ sec a) → vm_xlate m.tables a = none
  entry : ∀ a l e r, p.map = l ++ e :: r → sec e.addr = sec a → (∀ d ∈ r, sec d.addr ≠ sec a) →
    Decodes (Pte.unpack (m.tables.pt (sec a))) e.pin
  access : ∀ d < 16, domain_access m.domain_access_ctrl d =
    if p.dom_ids.getLsbD d then DOM_manager.setWidth 2 else 0
  enabled : mmu_is_enabled m = enable_p
  procid : m.procid = kern_pid <<< 8 ||| kern_asid

theorem vm_map_kernel_ok_iff {enable_p : Bool} :
    (∃ m', vm_map_kernel lib p enable_p m = .ok m') ↔ Mappable p m := by
  simp only [vm_map_kernel_ok]
  constructor
  · rintro ⟨m', t, d, ht, hd, hon, -⟩
    exact ⟨map_entries_ok_iff.mp ⟨t, ht⟩, dom_perm_manager_ok_iff.mp ⟨d, hd⟩, hon⟩
  · rintro ⟨hlegal, hdom, hon⟩
    obtain ⟨t, ht⟩ := map_entries_ok_iff.mpr hlegal
    obtain ⟨d, hd⟩ := dom_perm_manager_ok_iff.mpr hdom
    exact ⟨_, t, d, ht, hd, hon, rfl⟩

theorem Mapped.of_vm_map_kernel {enable_p : Bool} (hrun : vm_map_kernel lib p enable_p m = .ok m') :
    Mapped p enable_p m' := by
  have hlegal := (vm_map_kernel_ok_iff.mp ⟨m', hrun⟩).legal
  obtain ⟨t, d, ht, hd, hon, rfl⟩ := vm_map_kernel_ok.mp hrun
  have htables : (if enable_p then (kernel_unit t d m).enabled else kernel_unit t d m).tables = t := by
    cases enable_p <;> rfl
  have hctrl : (if enable_p then (kernel_unit t d m).enabled else kernel_unit t d m).domain_access_ctrl = d := by
    cases enable_p <;> rfl
  refine ⟨fun a ha => ?_, fun a ha => ?_, fun a l e r hsplit hsec hr => ?_, fun d' hd' => ?_, ?_, ?_⟩
  · obtain ⟨l, e, r, hsplit, hsec, hr⟩ := exists_last_entry ha
    rw [hsplit] at hlegal ht
    have haddr := (hlegal e (List.mem_append_right _ List.mem_cons_self)).addr
    rw [htables]
    exact vm_xlate_identity haddr hsec (map_entries_last hlegal ht hsec hr)
  · rw [htables, vm_xlate_eq, map_entries_rest hlegal ht ha]
    rfl
  · rw [hsplit] at hlegal ht
    rw [htables, map_entries_last hlegal ht hsec hr, Pte.unpack_pack]
    exact section_entry_decodes lib e.addr e.pin
  · rw [hctrl]
    exact dom_perm_access hd hd'
  · cases enable_p with
    | false => exact (mmu_is_enabled_kernel_unit t d m).trans hon
    | true => exact mmu_is_enabled_enabled _
  · cases enable_p <;> rfl

/-- `vm_map_kernel` returns for the maps that can be mapped and no others. Every address of a
section of the map is then translated to itself, with the attributes of the last entry for the
section, and no other address is translated. -/
theorem vm_map_kernel_identity (lib : BitGetters) (p : Procmap) (enable_p : Bool) (m : Mmu) :
    ((∃ m', vm_map_kernel lib p enable_p m = .ok m') ↔ Mappable p m) ∧
      ∀ m', vm_map_kernel lib p enable_p m = .ok m' → Mapped p enable_p m' :=
  ⟨vm_map_kernel_ok_iff, fun _ hrun => .of_vm_map_kernel hrun⟩

/-- The layouts with the program below the heap, and the heap in the second section. -/
def Layout.Usual (l : Layout) : Prop :=
  l.prog_end.toNat ≤ MB.toNat ∧ l.heap_start = MB ∧ l.heap_end - l.heap_start = MB

/-- The entries of the default map. -/
def default_entries (l : Layout) (dom dom2 : Word) : List PrEnt :=
  [⟨0x20000000, MB, MEM_DEVICE, dom⟩, ⟨0x20100000, MB, MEM_DEVICE, dom⟩, ⟨0x20200000, MB, MEM_DEVICE, dom⟩,
    ⟨0x300000, MB, MEM_RW, dom2⟩, ⟨0x00000000, MB, MEM_RW, dom⟩, ⟨0x00100000, MB, MEM_RW, dom⟩,
    ⟨l.INT_STACK_ADDR - MB, MB, MEM_RW, dom⟩, ⟨l.STACK_ADDR - MB, MB, MEM_RW, dom⟩]

theorem push_all_eq {todo : List (Word × ℕ × Word)} (hdom : ∀ d ∈ todo, d.2.2.toNat < 16)
    (hlength : p.map.length + todo.length ≤ MAX_ENT) : push_all p todo =
      .ok ⟨todo.foldl (fun ids d => ids ||| (1 : Word) <<< d.2.2.toNat) p.dom_ids,
        p.map ++ todo.map fun d => ⟨d.1, MB, d.2.1, d.2.2⟩⟩ := by
  induction todo generalizing p with
  | nil =>
    rw [List.map_nil, List.append_nil]
    rfl
  | cons d todo ih =>
    rw [List.forall_mem_cons] at hdom
    rw [List.length_cons] at hlength
    have hmk : pr_ent_mk d.1 MB d.2.1 d.2.2 = .ok ⟨d.1, MB, d.2.1, d.2.2⟩ := by
      rw [pr_ent_mk, if_neg (not_not.mpr (show MB = 1024 * 1024 from rfl)), if_neg (not_not.mpr hdom.1)]
    have hpush : procmap_push p ⟨d.1, MB, d.2.1, d.2.2⟩ =
        .ok ⟨p.dom_ids ||| (1 : Word) <<< d.2.2.toNat, p.map ++ [⟨d.1, MB, d.2.1, d.2.2⟩]⟩ := by
      rw [procmap_push, if_neg (by omega), if_neg (not_not.mpr hdom.1)]
    rw [push_all, hmk]
    change (procmap_push p _ >>= fun p => push_all p todo) = _
    rw [hpush]
    refine (ih hdom.2 ?_).trans ?_
    · rw [List.length_append, List.length_singleton]
      omega
    · rw [List.append_assoc]
      rfl

theorem procmap_default_mk_eq {l : Layout} (h : l.Usual) :
    procmap_default_mk l kern_dom user_dom = .ok ⟨0b110, default_entries l kern_dom user_dom⟩ := by
  obtain ⟨hend, hstart, hsize⟩ := h
  rw [procmap_default_mk, push_all_eq (by decide) (by decide)]
  change (if ¬l.prog_end.toNat ≤ MB.toNat then _ else _) = _
  rw [if_neg (not_not.mpr hend), push_all_eq (by decide) (by decide)]
  change (if l.heap_start ≠ MB then _ else _) = _
  rw [if_neg (not_not.mpr hstart), if_neg (not_not.mpr hsize), push_all_eq ?_ ?_]
  · refine congrArg Except.ok (congrArg₂ Procmap.mk ?_ rfl)
    simp only [List.foldl]
    decide
  · simp [kern_dom]
  · exact Nat.le_refl 8

theorem default_mappable {l : Layout} (hint : aligned (l.INT_STACK_ADDR - MB) OneMB)
    (hstack : aligned (l.STACK_ADDR - MB) OneMB) (hoff : mmu_is_enabled m = false) :
    Mappable ⟨0b110, default_entries l kern_dom user_dom⟩ m := by
  have hdom : kern_dom.toNat ≤ 16 := by decide
  have hdevice : ∀ a : Word, aligned a OneMB → PrEnt.Legal ⟨a, MB, MEM_DEVICE, kern_dom⟩ :=
    fun a ha => ⟨ha, rfl, .inl rfl, hdom⟩
  have hkern : ∀ a : Word, aligned a OneMB → PrEnt.Legal ⟨a, MB, MEM_RW, kern_dom⟩ :=
    fun a ha => ⟨ha, rfl, .inr rfl, hdom⟩
  have huser : PrEnt.Legal ⟨0x300000, MB, MEM_RW, user_dom⟩ := ⟨by decide, rfl, .inr rfl, by decide⟩
  refine ⟨?_, (by decide : (0b110 : Word) ≠ 0 ∧ (0b110 : Word) >>> 16 = 0), hoff⟩
  simp only [default_entries, List.forall_mem_cons]
  exact ⟨hdevice _ (by decide), hdevice _ (by decide), hdevice _ (by decide), huser, hkern _ (by decide),
    hkern _ (by decide), hkern _ hint, hkern _ hstack, fun _ h => absurd h List.not_mem_nil⟩

/-- The default map, with stacks below 144 and 128 megabytes. -/
theorem vm_map_kernel_identity_default : ∃ p m',
    procmap_default_mk ⟨MB, MB, MB + MB, 0x9000000, 0x8000000⟩ kern_dom user_dom = .ok p ∧
      vm_map_kernel libpi p true ⟨0, 0, 0, ⟨fun _ => 0, fun _ => 0⟩⟩ = .ok m' ∧
      vm_xlate m'.tables 0x8140 = some (0, 0x8140) ∧
      vm_xlate m'.tables 0x400000 = none := by
  have hp := procmap_default_mk_eq (l := ⟨MB, MB, MB + MB, 0x9000000, 0x8000000⟩) ⟨by decide, rfl, rfl⟩
  have hmap := vm_map_kernel_identity libpi
    ⟨0b110, default_entries ⟨MB, MB, MB + MB, 0x9000000, 0x8000000⟩ kern_dom user_dom⟩ true
    ⟨0, 0, 0, ⟨fun _ => 0, fun _ => 0⟩⟩
  obtain ⟨m', hrun⟩ := hmap.1.mpr (default_mappable (by decide) (by decide) rfl)
  refine ⟨_, m', hp, hrun, (hmap.2 m' hrun).identity 0x8140 ?_, (hmap.2 m' hrun).rest 0x400000 (by decide)⟩
  exact ⟨⟨0x00000000, MB, MEM_RW, kern_dom⟩, by decide, by decide⟩

end EquivChecker.KernelMap
