import EquivChecker.BitFields
import EquivChecker.Fault

/-!
# The page table

`vm_map_sec` packs the attributes of a section into a first-level descriptor, `vm_lookup` and
`vm_xlate` read it again. Whatever was mapped before, an address is translated as the last
call for its section says. The bit functions of libpi are parameters; the table is filled
with zeros when it is allocated.
-/

namespace EquivChecker.PageTable

open BitField

def OneMB : ℕ := 1024 * 1024

def N_PHYSICAL_PAGE : ℕ := 4096

def PT_LEVEL1_N : ℕ := 4096

def PAGE_1MB : Word := 0b11

/-- The functions of libpi that extract bits. -/
structure BitGetters where
  bits_get : Word → ℕ → ℕ → Word
  bit_get : Word → ℕ → Word
  bits_get_eq : ∀ x lb ub, lb ≤ ub → ub < 32 →
    bits_get x lb ub = (x.extractLsb' lb (ub - lb + 1)).setWidth 32
  bit_get_eq : ∀ x bit, bit < 32 → bit_get x bit = (x.extractLsb' bit 1).setWidth 32

/-- `pin_t`, without the asid. Permissions and memory attributes are numbers, as in C. -/
structure Pin where
  G : Word
  dom : Word
  pagesize : Word
  AP_perm : Word
  mem_attr : Word

/-- `first_level_descriptor`, by its fields. -/
@[ext] structure Pte where
  tag : BitVec 2
  B : BitVec 1
  C : BitVec 1
  XN : BitVec 1
  domain : BitVec 4
  IMP : BitVec 1
  AP : BitVec 2
  TEX : BitVec 3
  APX : BitVec 1
  S : BitVec 1
  nG : BitVec 1
  super : BitVec 1
  _sbz1 : BitVec 1
  sec_base_addr : BitVec 12

/-- The fields lie from bit 0 on. -/
def Pte.pack (e : Pte) : Word :=
  place 32 0 e.tag ||| place 32 2 e.B ||| place 32 3 e.C ||| place 32 4 e.XN ||| place 32 5 e.domain |||
    place 32 9 e.IMP ||| place 32 10 e.AP ||| place 32 12 e.TEX ||| place 32 15 e.APX ||| place 32 16 e.S |||
    place 32 17 e.nG ||| place 32 18 e.super ||| place 32 19 e._sbz1 ||| place 32 20 e.sec_base_addr

def Pte.unpack (w : Word) : Pte where
  tag := w.extractLsb' 0 2
  B := w.extractLsb' 2 1
  C := w.extractLsb' 3 1
  XN := w.extractLsb' 4 1
  domain := w.extractLsb' 5 4
  IMP := w.extractLsb' 9 1
  AP := w.extractLsb' 10 2
  TEX := w.extractLsb' 12 3
  APX := w.extractLsb' 15 1
  S := w.extractLsb' 16 1
  nG := w.extractLsb' 17 1
  super := w.extractLsb' 18 1
  _sbz1 := w.extractLsb' 19 1
  sec_base_addr := w.extractLsb' 20 12

/-- The page table and `taken_list`. -/
structure Tables where
  pt : ℕ → Word
  taken_list : ℕ → BitVec 8

def aligned (x : Word) (n : ℕ) : Prop := x.toNat % n = 0

instance (x : Word) (n : ℕ) : Decidable (aligned x n) := inferInstanceAs (Decidable (_ = _))

section
variable (lib : BitGetters)

def mem_attr_TEX (m : Word) : Word := lib.bits_get m 2 4

def mem_attr_B (m : Word) : Word := lib.bit_get m 0

def mem_attr_C (m : Word) : Word := lib.bit_get m 1

/-- The descriptor that `vm_map_sec` builds; a value is cut to the width of its field. -/
def section_entry (pa : Word) (attr : Pin) : Pte where
  tag := 0b10
  B := (mem_attr_B lib attr.mem_attr).setWidth 1
  C := (mem_attr_C lib attr.mem_attr).setWidth 1
  XN := 0
  domain := attr.dom.setWidth 4
  IMP := 0
  AP := (attr.AP_perm &&& 0b11).setWidth 2
  TEX := (mem_attr_TEX lib attr.mem_attr).setWidth 3
  APX := (attr.AP_perm >>> 2).setWidth 1
  S := 0
  nG := (~~~attr.G).setWidth 1
  super := 0
  _sbz1 := 0
  sec_base_addr := (pa >>> 20).setWidth 12

/-- The entry is returned by its index. -/
def vm_map_sec (va pa : Word) (attr : Pin) (t : Tables) : Except Fault (ℕ × Tables) :=
  if ¬aligned va OneMB then .error (.panic "aligned(va, OneMB)")
  else if ¬aligned pa OneMB then .error (.panic "aligned(pa, OneMB)")
  else if attr.pagesize ≠ PAGE_1MB then .error (.panic "attr.pagesize == PAGE_1MB")
  else
    let phys_segment := (pa >>> 20).toNat
    if N_PHYSICAL_PAGE ≤ phys_segment then .error (.panic "physical segment too big")
    else
      let t := { t with taken_list := Function.update t.taken_list phys_segment 1 }
      let index := (va >>> 20).toNat
      if PT_LEVEL1_N ≤ index then .error (.panic "index < PT_LEVEL1_N")
      else .ok (index, { t with pt := Function.update t.pt index (section_entry lib pa attr).pack })

end

def vm_lookup (t : Tables) (va : Word) : Option ℕ :=
  let pte := Pte.unpack (t.pt (va >>> 20).toNat)
  if pte.tag = 0 then none else some (va >>> 20).toNat

/-- The entry, with what is stored to `*pa`. -/
def vm_xlate (t : Tables) (va : Word) : Option (ℕ × Word) :=
  let pte := Pte.unpack (t.pt (va >>> 20).toNat)
  if pte.tag = 0 then none
  else
    let pa := pte.sec_base_addr.setWidth 32 <<< 20 ||| (va &&& 0xfffff)
    some ((va >>> 20).toNat, pa)

/-- The arguments of a call of `vm_map_sec`. -/
structure Mapping where
  va : Word
  pa : Word
  attr : Pin

/-- One call after another. -/
def map_all (lib : BitGetters) : List Mapping → Tables → Except Fault Tables
  | [], t => .ok t
  | c :: calls, t => do
    let (_, t) ← vm_map_sec lib c.va c.pa c.attr t
    map_all lib calls t

/-- Addresses are aligned, and the size is that of a section. -/
structure Mapping.Legal (c : Mapping) : Prop where
  va : aligned c.va OneMB
  pa : aligned c.pa OneMB
  pagesize : c.attr.pagesize = PAGE_1MB

/-- The number of a section. -/
def sec (a : Word) : ℕ := (a >>> 20).toNat

/-- No call is about the section of the address. -/
def Unmapped (calls : List Mapping) (a : Word) : Prop := ∀ c ∈ calls, sec c.va ≠ sec a

/-- The fields of an entry give the attributes back. -/
structure Decodes (e : Pte) (attr : Pin) : Prop where
  tag : e.tag = 0b10
  domain : attr.dom.toNat < 16 → e.domain.toNat = attr.dom.toNat
  perm : attr.AP_perm.toNat < 8 → e.APX.toNat * 4 + e.AP.toNat = attr.AP_perm.toNat
  mem_attr : attr.mem_attr.toNat < 32 →
    e.TEX.toNat * 4 + e.C.toNat * 2 + e.B.toNat = attr.mem_attr.toNat
  nG : attr.G = 0 ∨ attr.G = 1 → e.nG.toNat = 1 - attr.G.toNat

variable {lib : BitGetters} {t t' : Tables} {c : Mapping} {calls : List Mapping} {a va pa : Word}
  {attr : Pin}

theorem Pte.unpack_pack (e : Pte) : unpack (pack e) = e := by
  simp only [unpack, pack, BitVec.extractLsb'_or]
  ext : 1
  all_goals simp (disch := decide) only [extract_place, extract_place_of_disjoint, BitVec.or_zero,
    BitVec.zero_or]

theorem section_entry_decodes (lib : BitGetters) (pa : Word) (attr : Pin) :
    Decodes (section_entry lib pa attr) attr where
  tag := rfl
  domain h := by
    rw [section_entry, BitVec.toNat_setWidth]
    omega
  perm h := by
    have hap : (attr.AP_perm &&& 0b11).toNat = attr.AP_perm.toNat % 4 := by
      rw [BitVec.toNat_and]
      exact Nat.and_two_pow_sub_one_eq_mod _ 2
    simp only [section_entry, BitVec.toNat_setWidth, BitVec.toNat_ushiftRight, hap,
      Nat.shiftRight_eq_div_pow]
    omega
  mem_attr h := by
    have htex := lib.bits_get_eq attr.mem_attr 2 4 (by decide) (by decide)
    have hb := lib.bit_get_eq attr.mem_attr 0 (by decide)
    have hc := lib.bit_get_eq attr.mem_attr 1 (by decide)
    simp only [section_entry, mem_attr_TEX, mem_attr_B, mem_attr_C, htex, hb, hc, BitVec.toNat_setWidth,
      BitVec.extractLsb'_toNat, Nat.shiftRight_eq_div_pow]
    omega
  nG h := by
    rcases h with h | h <;> rw [section_entry, h] <;> rfl

theorem sec_eq (a : Word) : sec a = a.toNat / 2 ^ 20 := by
  rw [sec, BitVec.toNat_ushiftRight, Nat.shiftRight_eq_div_pow]

theorem sec_lt (a : Word) : sec a < 4096 := by
  have := a.isLt
  rw [sec_eq]
  omega

theorem vm_map_sec_eq (hc : c.Legal) (t : Tables) : vm_map_sec lib c.va c.pa c.attr t =
    .ok (sec c.va, ⟨Function.update t.pt (sec c.va) (section_entry lib c.pa c.attr).pack,
      Function.update t.taken_list (sec c.pa) 1⟩) := by
  have hpa : ¬N_PHYSICAL_PAGE ≤ (c.pa >>> 20).toNat := Nat.not_le.mpr (sec_lt c.pa)
  have hva : ¬PT_LEVEL1_N ≤ (c.va >>> 20).toNat := Nat.not_le.mpr (sec_lt c.va)
  rw [vm_map_sec, if_neg (not_not.mpr hc.va), if_neg (not_not.mpr hc.pa), if_neg (not_not.mpr hc.pagesize)]
  dsimp only
  rw [if_neg hpa, if_neg hva]
  rfl

/-- Any other call panics. -/
theorem Mapping.Legal.of_vm_map_sec {r : ℕ × Tables} (h : vm_map_sec lib c.va c.pa c.attr t = .ok r) :
    c.Legal := by
  rw [vm_map_sec] at h
  split_ifs at h with hva hpa hsize
  exact ⟨hva, hpa, not_not.mp hsize⟩

/-- The section base and the offset make up the translated address. -/
theorem section_address (hpa : aligned pa OneMB) (a : Word) :
    ((pa >>> 20).setWidth 12).setWidth 32 <<< 20 ||| (a &&& 0xfffff) = pa + (a &&& 0xfffff) := by
  have hpa' : pa.toNat % 2 ^ 20 = 0 := hpa
  have hlt := pa.isLt
  have hlow : (a &&& 0xfffff).toNat < 2 ^ 20 := by
    rw [BitVec.toNat_and]
    exact Nat.and_lt_two_pow _ (by decide)
  have hbase : (((pa >>> 20).setWidth 12).setWidth 32 <<< 20).toNat = 2 ^ 20 * (pa.toNat / 2 ^ 20) := by
    rw [BitVec.toNat_shiftLeft, BitVec.toNat_setWidth, BitVec.toNat_setWidth, BitVec.toNat_ushiftRight,
      Nat.shiftRight_eq_div_pow, Nat.shiftLeft_eq]
    omega
  refine BitVec.eq_of_toNat_eq ?_
  rw [BitVec.toNat_or, hbase, ← Nat.two_pow_add_eq_or_of_lt hlow, BitVec.toNat_add]
  omega

theorem vm_lookup_eq (t : Tables) (a : Word) :
    vm_lookup t a = if (Pte.unpack (t.pt (sec a))).tag = 0 then none else some (sec a) := rfl

theorem vm_xlate_eq (t : Tables) (a : Word) : vm_xlate t a =
    if (Pte.unpack (t.pt (sec a))).tag = 0 then none
    else some (sec a, (Pte.unpack (t.pt (sec a))).sec_base_addr.setWidth 32 <<< 20 ||| (a &&& 0xfffff)) := rfl

theorem map_all_append (l r : List Mapping) (t : Tables) :
    map_all lib (l ++ r) t = map_all lib l t >>= map_all lib r := by
  induction l generalizing t with
  | nil => rfl
  | cons c l ih =>
    rw [List.cons_append, map_all, map_all]
    cases vm_map_sec lib c.va c.pa c.attr t with
    | error e => rfl
    | ok r => exact ih r.2

/-- Legal calls return, and leave the entries of other sections alone. -/
theorem map_all_spec (hlegal : ∀ c ∈ calls, c.Legal) (t : Tables) : ∃ t', map_all lib calls t = .ok t' ∧
    ∀ a, Unmapped calls a → t'.pt (sec a) = t.pt (sec a) := by
  induction calls generalizing t with
  | nil => exact ⟨t, rfl, fun _ _ => rfl⟩
  | cons c calls ih =>
    rw [List.forall_mem_cons] at hlegal
    obtain ⟨t', hrun, hrest⟩ := ih hlegal.2
      ⟨Function.update t.pt (sec c.va) (section_entry lib c.pa c.attr).pack,
        Function.update t.taken_list (sec c.pa) 1⟩
    refine ⟨t', ?_, fun a ha => ?_⟩
    · rw [map_all, vm_map_sec_eq hlegal.1]
      exact hrun
    · rw [Unmapped, List.forall_mem_cons] at ha
      rw [hrest a ha.2]
      exact Function.update_of_ne ha.1.symm _ _

theorem map_all_ok_iff : (∃ t', map_all lib calls t = .ok t') ↔ ∀ c ∈ calls, c.Legal := by
  constructor
  · rintro ⟨t', hrun⟩
    induction calls generalizing t with
    | nil => exact fun c hc => absurd hc List.not_mem_nil
    | cons c calls ih =>
      rw [map_all] at hrun
      cases hmap : vm_map_sec lib c.va c.pa c.attr t with
      | error e =>
        rw [hmap] at hrun
        cases hrun
      | ok r =>
        rw [hmap] at hrun
        exact List.forall_mem_cons.mpr ⟨.of_vm_map_sec hmap, ih hrun⟩
  · intro hlegal
    obtain ⟨t', hrun, -⟩ := map_all_spec hlegal t
    exact ⟨t', hrun⟩

/-- The last call for a section left its entry. -/
theorem map_all_last {l r : List Mapping} (hl : ∀ c ∈ l, c.Legal) (hc : c.Legal) (hr : ∀ c ∈ r, c.Legal)
    (hsec : sec c.va = sec a) (hunmapped : Unmapped r a) (hrun : map_all lib (l ++ c :: r) t = .ok t') :
    t'.pt (sec a) = (section_entry lib c.pa c.attr).pack := by
  obtain ⟨t₁, hrun₁, -⟩ := map_all_spec hl t
  obtain ⟨t₂, hrun₂, hkept⟩ := map_all_spec hr ⟨Function.update t₁.pt (sec c.va)
    (section_entry lib c.pa c.attr).pack, Function.update t₁.taken_list (sec c.pa) 1⟩
  have hall : map_all lib (l ++ c :: r) t = .ok t₂ := by
    rw [map_all_append, hrun₁]
    change map_all lib (c :: r) t₁ = _
    rw [map_all, vm_map_sec_eq hc]
    exact hrun₂
  cases hrun.symm.trans hall
  rw [hkept a hunmapped, hsec]
  exact Function.update_self _ _ _

theorem exists_last (h : ¬Unmapped calls a) :
    ∃ l c r, calls = l ++ c :: r ∧ sec c.va = sec a ∧ Unmapped r a := by
  induction calls with
  | nil => exact absurd (fun c hc => absurd hc List.not_mem_nil) h
  | cons d calls ih =>
    by_cases hrest : Unmapped calls a
    · have hd : sec d.va = sec a := by
        by_contra hne
        exact h (List.forall_mem_cons.mpr ⟨hne, hrest⟩)
      exact ⟨[], d, calls, rfl, hd, hrest⟩
    · obtain ⟨l, c, r, rfl, hc, hr⟩ := ih hrest
      exact ⟨d :: l, c, r, rfl, hc, hr⟩

/-- On a table of zeros, after any legal calls: an address is found exactly when some call was
about its section, and it is translated and its entry decodes as the last of them says. -/
theorem translates_last_mapping (lib : BitGetters) (taken_list : ℕ → BitVec 8) (calls : List Mapping)
    (hlegal : ∀ c ∈ calls, c.Legal) : ∃ t, map_all lib calls ⟨fun _ => 0, taken_list⟩ = .ok t ∧
      ∀ a, (vm_lookup t a = none ↔ Unmapped calls a) ∧ (vm_xlate t a = none ↔ Unmapped calls a) ∧
        ∀ l c r, calls = l ++ c :: r → sec c.va = sec a → Unmapped r a →
          vm_lookup t a = some (sec a) ∧ vm_xlate t a = some (sec a, c.pa + (a &&& 0xfffff)) ∧
            Decodes (Pte.unpack (t.pt (sec a))) c.attr := by
  obtain ⟨t, hrun, hkept⟩ := map_all_spec hlegal ⟨fun _ => 0, taken_list⟩
  have hlast : ∀ a l c r, calls = l ++ c :: r → sec c.va = sec a → Unmapped r a →
      vm_lookup t a = some (sec a) ∧ vm_xlate t a = some (sec a, c.pa + (a &&& 0xfffff)) ∧
        Decodes (Pte.unpack (t.pt (sec a))) c.attr := by
    rintro a l c r rfl hsec hr
    rw [List.forall_mem_append, List.forall_mem_cons] at hlegal
    obtain ⟨hl, hc, hrl⟩ := hlegal
    rw [vm_lookup_eq, vm_xlate_eq, map_all_last hl hc hrl hsec hr hrun, Pte.unpack_pack]
    have htag : (section_entry lib c.pa c.attr).tag ≠ 0 := by
      change (0b10 : BitVec 2) ≠ 0
      decide
    rw [if_neg htag, if_neg htag]
    exact ⟨rfl, congrArg (fun pa => some (sec a, pa)) (section_address hc.pa a),
      section_entry_decodes lib c.pa c.attr⟩
  refine ⟨t, hrun, fun a => ?_⟩
  by_cases ha : Unmapped calls a
  · have hzero : (Pte.unpack (t.pt (sec a))).tag = 0 := by
      rw [hkept a ha]
      rfl
    exact ⟨iff_of_true (if_pos hzero) ha, iff_of_true (if_pos hzero) ha, hlast a⟩
  · obtain ⟨l, c, r, hcalls, hsec, hr⟩ := exists_last ha
    obtain ⟨hlookup, hxlate, -⟩ := hlast a l c r hcalls hsec hr
    refine ⟨?_, ?_, hlast a⟩
    · rw [hlookup]
      exact iff_of_false (Option.some_ne_none _) ha
    · rw [hxlate]
      exact iff_of_false (Option.some_ne_none _) ha

/-- Bits are extracted by shifting and masking. -/
def libpi : BitGetters where
  bits_get x lb ub := x >>> lb &&& BitVec.ofNat 32 (2 ^ (ub - lb + 1) - 1)
  bit_get x bit := x >>> bit &&& 1
  bits_get_eq x lb ub _ hub := shift_mask x lb (by omega)
  bit_get_eq x bit _ := shift_mask (n := 1) x bit (by decide)

/-- Of two calls for section 1, the second counts. -/
theorem translates_last_mapping_twice : ∃ t,
    map_all libpi [⟨0x00100000, 0x00500000, ⟨1, 1, PAGE_1MB, 1, 4⟩⟩,
      ⟨0x00100000, 0x00200000, ⟨0, 7, PAGE_1MB, 3, 4⟩⟩] ⟨fun _ => 0, fun _ => 0⟩ = .ok t ∧
    vm_xlate t 0x00100abc = some (1, 0x00200abc) ∧ vm_lookup t 0x00300000 = none := by
  have hlegal : ∀ c ∈ [Mapping.mk 0x00100000 0x00500000 ⟨1, 1, PAGE_1MB, 1, 4⟩,
      ⟨0x00100000, 0x00200000, ⟨0, 7, PAGE_1MB, 3, 4⟩⟩], c.Legal := by
    rw [List.forall_mem_cons, List.forall_mem_singleton]
    exact ⟨⟨by decide, by decide, rfl⟩, by decide, by decide, rfl⟩
  obtain ⟨t, hrun, hall⟩ := translates_last_mapping libpi (fun _ => 0) _ hlegal
  have hunmapped : Unmapped [Mapping.mk 0x00100000 0x00500000 ⟨1, 1, PAGE_1MB, 1, 4⟩,
      ⟨0x00100000, 0x00200000, ⟨0, 7, PAGE_1MB, 3, 4⟩⟩] 0x00300000 := by
    rw [Unmapped, List.forall_mem_cons, List.forall_mem_singleton]
    exact ⟨by decide, by decide⟩
  obtain ⟨-, hxlate, -⟩ := (hall 0x00100abc).2.2 [_] _ [] rfl rfl (fun _ h => absurd h List.not_mem_nil)
  exact ⟨t, hrun, hxlate, (hall 0x00300000).1.mpr hunmapped⟩

end EquivChecker.PageTable
