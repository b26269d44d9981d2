import EquivChecker.SharedMemory

/-!
# The bytes that an instruction touches

`get_touched_bytes` tells the kinds of loads and stores apart by some of the bits of an
instruction. The tests for swaps and exclusive accesses do not read the bits that set them
apart from halfword, signed byte and doubleword accesses. The bit functions of libpi are
parameters.
-/

namespace EquivChecker.TouchedBytes

open SetTrie OwnedHeap SharedMemory

/-- The functions of libpi that extract bits. -/
structure BitReaders where
  bits_get : Word → ℕ → ℕ → Word
  bit_isset : Word → ℕ → Word
  bits_get_eq : ∀ x lb ub, lb ≤ ub → ub < 32 →
    bits_get x lb ub = (x.extractLsb' lb (ub - lb + 1)).setWidth 32
  bit_isset_eq : ∀ x bit, bit < 32 → bit_isset x bit = bits_get x bit bit

def insert_byte (destination_set : Ptr) (addr : Word) : SetM PUnit := do
  let _ ← set_insert levels destination_set addr

/-- `for(int i = 0; i < n; i++) set_insert(destination_set, addr + i);` -/
def insert_bytes (destination_set : Ptr) (addr : Word) (n : ℕ) : SetM PUnit :=
  forM (List.range n) fun i => insert_byte destination_set (addr + BitVec.ofNat 32 i)

/-- The loop over the bits of `register_list`, with the bits still to come. -/
def touch_registers (destination_set : Ptr) (addr register_list : Word) : List ℕ → Word → SetM PUnit
  | [], _ => pure ()
  | i :: todo, offset =>
    if (register_list >>> i) &&& 0x1 ≠ 0 then do
      insert_bytes destination_set (addr + offset) 4
      touch_registers destination_set addr register_list todo (offset + 4)
    else touch_registers destination_set addr register_list todo offset

def get_touched_bytes (lib : BitReaders) (instruction addr : Word) (destination_set : Ptr) :
    SetM PUnit :=
  if lib.bits_get instruction 20 27 = 0b00010000 then insert_bytes destination_set addr 4
  else if lib.bits_get instruction 20 27 = 0b00010100 then insert_byte destination_set addr
  else if lib.bits_get instruction 21 27 = 0b0001100 then insert_bytes destination_set addr 4
  else if lib.bits_get instruction 26 27 = 0b01 then
    if lib.bit_isset instruction 22 ≠ 0 then insert_byte destination_set addr
    else insert_bytes destination_set addr 4
  else if lib.bits_get instruction 25 27 = 0b000 then
    let l := lib.bit_isset instruction 20
    let sh := lib.bits_get instruction 5 6
    let lsh := (l <<< 2) ||| sh
    if lsh = 0b001 ∨ lsh = 0b111 ∨ lsh = 0b101 then do
      insert_byte destination_set addr
      insert_byte destination_set (addr + 1)
    else if lsh = 0b010 ∨ lsh = 0b011 then insert_bytes destination_set addr 8
    else if lsh = 0b110 then insert_byte destination_set addr
    else fail (.panic "Unexpected LSH combination\n")
  else if lib.bits_get instruction 25 27 = 0b100 then
    touch_registers destination_set addr (lib.bits_get instruction 0 15) (List.range 16) 0
  else pure ()

/-- The loads and stores of ARMv6 that are traced. -/
inductive Access
  /-- SWP and SWPB -/
  | swap (byte : Bool)
  /-- LDREX and STREX -/
  | exclusive
  /-- LDR and STR, LDRB and STRB, and their T forms -/
  | single (byte : Bool)
  /-- STRH, LDRH and LDRSH -/
  | halfword
  /-- LDRSB -/
  | signedByte
  /-- LDRD and STRD -/
  | doubleword
  /-- LDM and STM, with the number of registers -/
  | multiple (registers : ℕ)

def Access.bytes : Access → ℕ
  | swap byte | single byte => if byte then 1 else 4
  | exclusive => 4
  | halfword => 2
  | signedByte => 1
  | doubleword => 8
  | multiple registers => 4 * registers

/-- The registers listed in an LDM or STM. -/
def listed (w : Word) : ℕ := ((List.range 16).filter w.getLsbD).length

/-- The extra loads and stores: bits 7 and 4 are set, and S and H are not both clear. -/
def Extra (w : Word) : Prop :=
  w.extractLsb' 25 3 = 0b000 ∧ w.getLsbD 7 = true ∧ w.getLsbD 4 = true ∧ w.extractLsb' 5 2 ≠ 0b00

/-- The word is an encoding of the access. Bits that should be zero or one are not looked at. -/
def Encodes (w : Word) (a : Access) : Prop :=
  w.extractLsb' 28 4 ≠ 0b1111 ∧ match a with
  | .swap byte => w.extractLsb' 23 5 = 0b00010 ∧ w.getLsbD 22 = byte ∧ w.extractLsb' 20 2 = 0b00 ∧
      w.extractLsb' 4 4 = 0b1001
  | .exclusive => w.extractLsb' 21 7 = 0b0001100 ∧ w.extractLsb' 4 4 = 0b1001
  | .single byte => w.extractLsb' 26 2 = 0b01 ∧ ¬(w.getLsbD 25 = true ∧ w.getLsbD 4 = true) ∧
      w.getLsbD 22 = byte
  | .halfword => Extra w ∧ (w.extractLsb' 5 2 = 0b01 ∨ w.getLsbD 20 = true ∧ w.extractLsb' 5 2 = 0b11)
  | .signedByte => Extra w ∧ w.getLsbD 20 = true ∧ w.extractLsb' 5 2 = 0b10
  | .doubleword => Extra w ∧ w.getLsbD 20 = false ∧ w.getLsbD 6 = true
  | .multiple registers => w.extractLsb' 25 3 = 0b100 ∧ listed w = registers ∧ 0 < registers

/-- An extra load or store that looks like a swap or an exclusive access: it is indexed before the
access without writeback (P and not W), and adds a register (U and not I), or is a store or a
doubleword load that subtracts (not U and not L). -/
def Mistaken (w : Word) : Prop :=
  Extra w ∧ w.getLsbD 24 = true ∧ w.getLsbD 21 = false ∧
    (w.getLsbD 23 = true ∧ w.getLsbD 22 = false ∨ w.getLsbD 23 = false ∧ w.getLsbD 20 = false)

/-- The addresses `addr` to `addr + n - 1`. -/
def bytes (addr : Word) (n : ℕ) : List Word := (List.range n).map fun i => addr + BitVec.ofNat 32 i

/-- The program adds the values to the set and does not panic. -/
def Adds (m : SetM PUnit) (p : Ptr) (l : List Word) : Prop :=
  ∀ s F, Owns s.nodes 6 p F → Ends m (fun _ t => Becomes s t 6 p F fun v => Has s.nodes 6 p v ∨ v ∈ l) s

/-- The instruction is taken to access `n` bytes. -/
def TouchesExactly (lib : BitReaders) (w : Word) (n : ℕ) : Prop :=
  ∀ addr p, Adds (get_touched_bytes lib w addr p) p (bytes addr n)

variable {lib : BitReaders} {w v addr : Word} {p : Ptr} {a : Access} {m n : ℕ}

section Bits

theorem BitReaders.bits_get_iff (lib : BitReaders) {lb ub : ℕ} (hle : lb ≤ ub) (hub : ub < 32)
    (hv : v.toNat < 2 ^ (ub - lb + 1)) :
    lib.bits_get w lb ub = v ↔ ∀ i < ub - lb + 1, w.getLsbD (lb + i) = v.getLsbD i := by
  rw [lib.bits_get_eq w lb ub hle hub, BitVec.eq_of_getLsbD_eq_iff]
  refine ⟨fun h i hi => ?_, fun h i hi => ?_⟩
  · have hbit := h i (by omega)
    rw [BitVec.getLsbD_setWidth, BitVec.getLsbD_extractLsb'] at hbit
    simpa [hi, show i < 32 by omega] using hbit
  · rw [BitVec.getLsbD_setWidth, BitVec.getLsbD_extractLsb']
    by_cases hlt : i < ub - lb + 1
    · simp [hlt, hi, h i hlt]
    · have hzero : v.getLsbD i = false :=
        Nat.testBit_lt_two_pow (hv.trans_le (Nat.pow_le_pow_right (by omega) (by omega)))
      simp [hlt, hzero]

theorem extract_iff {lo len : ℕ} {v : BitVec len} :
    w.extractLsb' lo len = v ↔ ∀ i < len, w.getLsbD (lo + i) = v.getLsbD i := by
  rw [BitVec.eq_of_getLsbD_eq_iff]
  refine forall_congr' fun i => ⟨fun h hi => ?_, fun h hi => ?_⟩
  · simpa [BitVec.getLsbD_extractLsb', hi] using h hi
  · simpa [BitVec.getLsbD_extractLsb', hi] using h hi

variable (lib) (w)

theorem is_swp : lib.bits_get w 20 27 = 0b00010000 ↔ w.getLsbD 27 = false ∧ w.getLsbD 26 = false ∧
    w.getLsbD 25 = false ∧ w.getLsbD 24 = true ∧ w.getLsbD 23 = false ∧ w.getLsbD 22 = false ∧
    w.getLsbD 21 = false ∧ w.getLsbD 20 = false := by
  rw [lib.bits_get_iff (by decide) (by decide) (by decide)]
  simp only [Nat.reduceSub, Nat.reduceAdd, Nat.forall_lt_succ_right]
  simp
  tauto

theorem is_swpb : lib.bits_get w 20 27 = 0b00010100 ↔ w.getLsbD 27 = false ∧ w.getLsbD 26 = false ∧
    w.getLsbD 25 = false ∧ w.getLsbD 24 = true ∧ w.getLsbD 23 = false ∧ w.getLsbD 22 = true ∧
    w.getLsbD 21 = false ∧ w.getLsbD 20 = false := by
  rw [lib.bits_get_iff (by decide) (by decide) (by decide)]
  simp only [Nat.reduceSub, Nat.reduceAdd, Nat.forall_lt_succ_right]
  simp
  tauto

theorem is_exclusive : lib.bits_get w 21 27 = 0b0001100 ↔ w.getLsbD 27 = false ∧ w.getLsbD 26 = false ∧
    w.getLsbD 25 = false ∧ w.getLsbD 24 = true ∧ w.getLsbD 23 = true ∧ w.getLsbD 22 = false ∧
    w.getLsbD 21 = false := by
  rw [lib.bits_get_iff (by decide) (by decide) (by decide)]
  simp only [Nat.reduceSub, Nat.reduceAdd, Nat.forall_lt_succ_right]
  simp
  tauto

theorem is_single : lib.bits_get w 26 27 = 0b01 ↔ w.getLsbD 27 = false ∧ w.getLsbD 26 = true := by
  rw [lib.bits_get_iff (by decide) (by decide) (by decide)]
  simp only [Nat.reduceSub, Nat.reduceAdd, Nat.forall_lt_succ_right]
  simp
  tauto

theorem is_extra : lib.bits_get w 25 27 = 0b000 ↔ w.getLsbD 27 = false ∧ w.getLsbD 26 = false ∧
    w.getLsbD 25 = false := by
  rw [lib.bits_get_iff (by decide) (by decide) (by decide)]
  simp only [Nat.reduceSub, Nat.reduceAdd, Nat.forall_lt_succ_right]
  simp
  tauto

theorem is_multiple : lib.bits_get w 25 27 = 0b100 ↔ w.getLsbD 27 = true ∧ w.getLsbD 26 = false ∧
    w.getLsbD 25 = false := by
  rw [lib.bits_get_iff (by decide) (by decide) (by decide)]
  simp only [Nat.reduceSub, Nat.reduceAdd, Nat.forall_lt_succ_right]
  simp
  tauto

/-- Swaps and exclusive accesses have bits 27 and 26 clear. -/
theorem not_swap_exclusive (h : w.getLsbD 27 = true ∨ w.getLsbD 26 = true) :
    ¬lib.bits_get w 20 27 = 0b00010000 ∧ ¬lib.bits_get w 20 27 = 0b00010100 ∧
      ¬lib.bits_get w 21 27 = 0b0001100 := by
  rw [is_swp, is_swpb, is_exclusive]
  rcases h with h | h <;> simp [h]

theorem isset_eq {bit : ℕ} (hbit : bit < 32) :
    lib.bit_isset w bit = if w.getLsbD bit = true then 1#32 else 0#32 := by
  rw [lib.bit_isset_eq w bit hbit, lib.bits_get_iff le_rfl hbit (by split <;> simp)]
  intro i hi
  obtain rfl : i = 0 := by omega
  cases w.getLsbD bit <;> simp

theorem sh_eq : lib.bits_get w 5 6 =
    if w.getLsbD 6 = true then (if w.getLsbD 5 = true then 3#32 else 2#32)
    else if w.getLsbD 5 = true then 1#32 else 0#32 := by
  rw [lib.bits_get_iff (by decide) (by decide) (by split <;> split <;> decide)]
  intro i hi
  have hcases : i = 0 ∨ i = 1 := by omega
  rcases hcases with rfl | rfl
  · rw [show 5 + 0 = 5 from rfl]
    cases w.getLsbD 5 <;> cases w.getLsbD 6 <;> rfl
  · rw [show 5 + 1 = 6 from rfl]
    cases w.getLsbD 5 <;> cases w.getLsbD 6 <;> rfl

end Bits

section Loops

theorem Adds.bind {m m' : SetM PUnit} {l l' : List Word} (h : Adds m p l) (h' : Adds m' p l') :
    Adds (do m; m') p (l ++ l') := by
  intro s F ho
  refine (h s F ho).bind ?_
  rintro - t ⟨F', hown, hm, hhas⟩
  refine (h' t F' hown).mono ?_
  rintro - u ⟨F'', hown', hm', hhas'⟩
  refine ⟨F'', hown', hm.trans hm', fun v => (hhas' v).trans ((or_congr_left (hhas v)).trans ?_)⟩
  simp only [List.mem_append, or_assoc]

theorem insert_byte_adds (addr : Word) : Adds (insert_byte p addr) p [addr] := by
  intro s F ho
  refine (set_insert_spec ho (show 6 < levels by decide) addr).bind ?_
  rintro - t ⟨hb, -⟩
  refine Wp.pure_iff.mpr (hb.congr fun v => or_congr_right ?_)
  rw [agree_top, List.mem_singleton]

theorem insert_bytes_adds (addr : Word) (n : ℕ) : Adds (insert_bytes p addr n) p (bytes addr n) :=
  fun s F ho => by
    have hall := insert_all_spec ho (bytes addr n)
    rwa [bytes, List.forM_map] at hall

theorem bytes_add (addr : Word) (m n : ℕ) :
    bytes addr (m + n) = bytes addr m ++ bytes (addr + BitVec.ofNat 32 m) n := by
  simp [bytes, List.range_add, BitVec.add_assoc, BitVec.ofNat_add]

/-- The registers listed from the `i`-th on take up consecutive words. -/
theorem touch_registers_adds (p : Ptr) (addr : Word) {register_list : Word}
    (hlist : ∀ i < 16, register_list.getLsbD i = w.getLsbD i) (todo : List ℕ) (offset : ℕ)
    (htodo : ∀ i ∈ todo, i < 16) :
    Adds (touch_registers p addr register_list todo (BitVec.ofNat 32 offset)) p
      (bytes (addr + BitVec.ofNat 32 offset) (4 * (todo.filter w.getLsbD).length)) := by
  induction todo generalizing offset with
  | nil =>
    intro s F ho
    exact Wp.pure_iff.mpr ⟨F, ho, Moves.refl _ _, fun v => by simp [bytes]⟩
  | cons i todo ih =>
    have hi := htodo i List.mem_cons_self
    have htodo' := fun j hj => htodo j (List.mem_cons_of_mem i hj)
    have hbit : (register_list >>> i) &&& 0x1 ≠ 0 ↔ w.getLsbD i = true := by
      have hand : (register_list >>> i) &&& 0x1 = _ := BitVec.and_one_eq_setWidth_ofBool_getLsbD
      rw [hand, BitVec.getLsbD_ushiftRight, Nat.add_zero, hlist i hi]
      cases w.getLsbD i <;> decide
    rw [touch_registers]
    by_cases hw : w.getLsbD i = true
    · rw [if_pos (hbit.mpr hw), List.filter_cons_of_pos hw, List.length_cons, Nat.mul_add, Nat.add_comm,
        Nat.mul_one, bytes_add, BitVec.add_assoc, ← BitVec.ofNat_add]
      refine (insert_bytes_adds _ 4).bind ?_
      have hrest := ih (offset + 4) htodo'
      rw [BitVec.ofNat_add] at hrest ⊢
      exact hrest
    · rw [if_neg (mt hbit.mp hw), List.filter_cons_of_neg hw]
      exact ih offset htodo'

theorem bytes_one (addr : Word) : bytes addr 1 = [addr] := by simp [bytes]

end Loops

section Decoding

theorem extra_iff : Extra w ↔ (w.getLsbD 27 = false ∧ w.getLsbD 26 = false ∧ w.getLsbD 25 = false) ∧
    w.getLsbD 7 = true ∧ w.getLsbD 4 = true ∧ (w.getLsbD 6 = true ∨ w.getLsbD 5 = true) := by
  rw [Extra, Ne, extract_iff, extract_iff]
  simp only [Nat.forall_lt_succ_right]
  simp
  grind

/-- The branch of the extra loads and stores. -/
theorem touched_extra (hx : Extra w) (hm : ¬Mistaken w) : get_touched_bytes lib w addr p =
    let lsh := (lib.bit_isset w 20 <<< 2) ||| lib.bits_get w 5 6
    if lsh = 0b001 ∨ lsh = 0b111 ∨ lsh = 0b101 then do
      insert_byte p addr
      insert_byte p (addr + 1)
    else if lsh = 0b010 ∨ lsh = 0b011 then insert_bytes p addr 8
    else if lsh = 0b110 then insert_byte p addr
    else fail (.panic "Unexpected LSH combination\n") := by
  obtain ⟨⟨h27, h26, h25⟩, -⟩ := extra_iff.mp hx
  have hnot : ∀ h24 : w.getLsbD 24 = true, ∀ h21 : w.getLsbD 21 = false,
      ¬(w.getLsbD 23 = true ∧ w.getLsbD 22 = false) ∧ ¬(w.getLsbD 23 = false ∧ w.getLsbD 20 = false) :=
    fun h24 h21 => not_or.mp fun h => hm ⟨hx, h24, h21, h⟩
  have hswp : ¬lib.bits_get w 20 27 = 0b00010000 := by
    rw [is_swp]
    exact fun ⟨_, _, _, h24, h23, _, h21, h20⟩ => (hnot h24 h21).2 ⟨h23, h20⟩
  have hswpb : ¬lib.bits_get w 20 27 = 0b00010100 := by
    rw [is_swpb]
    exact fun ⟨_, _, _, h24, h23, _, h21, h20⟩ => (hnot h24 h21).2 ⟨h23, h20⟩
  have hexclusive : ¬lib.bits_get w 21 27 = 0b0001100 := by
    rw [is_exclusive]
    exact fun ⟨_, _, _, h24, h23, h22, h21⟩ => (hnot h24 h21).1 ⟨h23, h22⟩
  have hsingle : ¬lib.bits_get w 26 27 = 0b01 := by
    rw [is_single, h26]
    simp
  rw [get_touched_bytes, if_neg hswp, if_neg hswpb, if_neg hexclusive, if_neg hsingle,
    if_pos ((is_extra lib w).mpr ⟨h27, h26, h25⟩)]

/-- Accesses that are not mistaken for others are taken to touch what they do. -/
theorem Encodes.adds (h : Encodes w a) (hm : ¬Mistaken w) :
    Adds (get_touched_bytes lib w addr p) p (bytes addr a.bytes) := by
  obtain ⟨-, h⟩ := h
  cases a with
  | swap byte =>
    obtain ⟨hop, h22, hlow, -⟩ := h
    simp only [extract_iff, Nat.forall_lt_succ_right] at hop hlow
    simp at hop hlow h22
    cases byte with
    | false =>
      rw [get_touched_bytes, if_pos ((is_swp lib w).mpr (by simp [hop, hlow, h22]))]
      exact insert_bytes_adds addr 4
    | true =>
      have hswp : ¬lib.bits_get w 20 27 = 0b00010000 := by
        rw [is_swp]
        simp [h22]
      rw [get_touched_bytes, if_neg hswp, if_pos ((is_swpb lib w).mpr (by simp [hop, hlow, h22]))]
      exact (bytes_one addr).symm ▸ insert_byte_adds addr
  | exclusive =>
    obtain ⟨hop, -⟩ := h
    simp only [extract_iff, Nat.forall_lt_succ_right] at hop
    simp at hop
    have hswp : ¬lib.bits_get w 20 27 = 0b00010000 := by
      rw [is_swp]
      simp [hop]
    have hswpb : ¬lib.bits_get w 20 27 = 0b00010100 := by
      rw [is_swpb]
      simp [hop]
    rw [get_touched_bytes, if_neg hswp, if_neg hswpb, if_pos ((is_exclusive lib w).mpr (by simp [hop]))]
    exact insert_bytes_adds addr 4
  | single byte =>
    obtain ⟨hop, -, h22⟩ := h
    simp only [extract_iff, Nat.forall_lt_succ_right] at hop
    simp at hop
    obtain ⟨hswp, hswpb, hexclusive⟩ := not_swap_exclusive lib w (.inr hop.1)
    rw [get_touched_bytes, if_neg hswp, if_neg hswpb, if_neg hexclusive,
      if_pos ((is_single lib w).mpr (by simp [hop])), isset_eq lib w (by decide), h22]
    cases byte with
    | false =>
      rw [if_neg (by simp)]
      exact insert_bytes_adds addr 4
    | true =>
      rw [if_pos (by simp)]
      exact (bytes_one addr).symm ▸ insert_byte_adds addr
  | halfword =>
    obtain ⟨hx, h⟩ := h
    have htwo : bytes addr 2 = [addr] ++ [addr + 1] := by simp [bytes, List.range_succ]
    have hsum : Adds (do insert_byte p addr; insert_byte p (addr + 1)) p (bytes addr 2) :=
      htwo ▸ (insert_byte_adds addr).bind (insert_byte_adds (addr + 1))
    rw [touched_extra hx hm, isset_eq lib w (by decide), sh_eq]
    simp only [extract_iff, Nat.forall_lt_succ_right] at h
    simp at h
    rw [if_pos ?_]
    · exact hsum
    · rcases h with ⟨h5, h6⟩ | ⟨h20, h5, h6⟩
      · cases w.getLsbD 20 <;> simp [h5, h6]
      · simp [h20, h5, h6]
  | signedByte =>
    obtain ⟨hx, h20, h⟩ := h
    rw [touched_extra hx hm, isset_eq lib w (by decide), sh_eq]
    simp only [extract_iff, Nat.forall_lt_succ_right] at h
    simp at h
    simp [h20, h]
    exact (bytes_one addr).symm ▸ insert_byte_adds addr
  | doubleword =>
    obtain ⟨hx, h20, h6⟩ := h
    rw [touched_extra hx hm, isset_eq lib w (by decide), sh_eq]
    rw [h20, h6, if_neg ?_, if_pos ?_]
    · exact insert_bytes_adds addr 8
    · cases w.getLsbD 5 <;> decide
    · cases w.getLsbD 5 <;> decide
  | multiple registers =>
    obtain ⟨hop, rfl, -⟩ := h
    simp only [extract_iff, Nat.forall_lt_succ_right] at hop
    simp at hop
    obtain ⟨hswp, hswpb, hexclusive⟩ := not_swap_exclusive lib w (.inl hop.2)
    have hsingle : ¬lib.bits_get w 26 27 = 0b01 := by
      rw [is_single]
      simp [hop]
    have hextra : ¬lib.bits_get w 25 27 = 0b000 := by
      rw [is_extra]
      simp [hop]
    rw [get_touched_bytes, if_neg hswp, if_neg hswpb, if_neg hexclusive, if_neg hsingle, if_neg hextra,
      if_pos ((is_multiple lib w).mpr (by simp [hop]))]
    have hlist : ∀ i < 16, (lib.bits_get w 0 15).getLsbD i = w.getLsbD i := by
      intro i hi
      rw [lib.bits_get_eq w 0 15 (by decide) (by decide), BitVec.getLsbD_setWidth,
        BitVec.getLsbD_extractLsb']
      simp [hi, show i < 32 by omega]
    have hall := touch_registers_adds p addr hlist (List.range 16) 0 fun i hi =>
      List.mem_range.mp hi
    rw [show BitVec.ofNat 32 0 = 0#32 from rfl, BitVec.add_zero] at hall
    exact hall

/-- An extra load or store that looks like another access is taken for it. -/
theorem Mistaken.touched (lib : BitReaders) (h : Mistaken w) (addr : Word) (p : Ptr) :
    get_touched_bytes lib w addr p = insert_bytes p addr 4 ∨
      get_touched_bytes lib w addr p = insert_byte p addr ∧ w.getLsbD 20 = false := by
  obtain ⟨hx, h24, h21, hkind⟩ := h
  obtain ⟨⟨h27, h26, h25⟩, -⟩ := extra_iff.mp hx
  rcases hkind with ⟨h23, h22⟩ | ⟨h23, h20⟩
  · have hswp : ¬lib.bits_get w 20 27 = 0b00010000 := by
      rw [is_swp, h23]
      simp
    have hswpb : ¬lib.bits_get w 20 27 = 0b00010100 := by
      rw [is_swpb, h23]
      simp
    have hexclusive := (is_exclusive lib w).mpr ⟨h27, h26, h25, h24, h23, h22, h21⟩
    exact .inl (by rw [get_touched_bytes, if_neg hswp, if_neg hswpb, if_pos hexclusive])
  · cases h22 : w.getLsbD 22 with
    | false =>
      have hswp := (is_swp lib w).mpr ⟨h27, h26, h25, h24, h23, h22, h21, h20⟩
      exact .inl (by rw [get_touched_bytes, if_pos hswp])
    | true =>
      have hswp : ¬lib.bits_get w 20 27 = 0b00010000 := by
        rw [is_swp, h22]
        simp
      have hswpb := (is_swpb lib w).mpr ⟨h27, h26, h25, h24, h23, h22, h21, h20⟩
      exact .inr ⟨by rw [get_touched_bytes, if_neg hswp, if_pos hswpb], h20⟩

theorem Encodes.extra (h : Encodes w a) (hx : Extra w) :
    a = .halfword ∨ a = .signedByte ∧ w.getLsbD 20 = true ∨ a = .doubleword := by
  obtain ⟨-, h⟩ := h
  obtain ⟨⟨h27, h26, -⟩, -, -, hsh⟩ := extra_iff.mp hx
  cases a with
  | swap byte =>
    obtain ⟨-, -, -, hlow⟩ := h
    simp only [extract_iff, Nat.forall_lt_succ_right] at hlow
    simp at hlow
    simp [hlow] at hsh
  | exclusive =>
    obtain ⟨-, hlow⟩ := h
    simp only [extract_iff, Nat.forall_lt_succ_right] at hlow
    simp at hlow
    simp [hlow] at hsh
  | single byte =>
    obtain ⟨hop, -⟩ := h
    simp only [extract_iff, Nat.forall_lt_succ_right] at hop
    simp at hop
    simp [hop] at h26
  | halfword => exact .inl rfl
  | signedByte => exact .inr (.inl ⟨rfl, h.2.1⟩)
  | doubleword => exact .inr (.inr rfl)
  | multiple registers =>
    obtain ⟨hop, -⟩ := h
    simp only [extract_iff, Nat.forall_lt_succ_right] at hop
    simp at hop
    simp [hop] at h27

end Decoding

/-- What a program adds to a set is determined, if it ends. -/
theorem Adds.unique {m : SetM PUnit} {l l' : List Word} (h : Adds m 1 l) (h' : Adds m 1 l')
    (hok : (m oneSet).isOk = true) : ∀ v, v ∈ l ↔ v ∈ l' := by
  obtain ⟨_, t, hrun, _, -, -, hhas⟩ := Wp.of_isOk (h oneSet {1} owns_oneSet) hok
  obtain ⟨_, -, -, hhas'⟩ := (h' oneSet {1} owns_oneSet).of_ok hrun
  intro v
  have hsame := (hhas v).symm.trans (hhas' v)
  simpa [not_has_oneSet] using hsame

theorem Mistaken.not_exact (hm : Mistaken w) (h : Encodes w a) : ¬TouchesExactly lib w a.bytes := by
  intro hexact
  have hadds := hexact 0 1
  have hbytes : a.bytes = 2 ∨ a.bytes = 1 ∧ w.getLsbD 20 = true ∨ a.bytes = 8 := by
    rcases h.extra hm.1 with rfl | ⟨rfl, h20⟩ | rfl
    · exact .inl rfl
    · exact .inr (.inl ⟨rfl, h20⟩)
    · exact .inr (.inr rfl)
  rcases hm.touched lib 0 1 with hfour | ⟨hone, h20⟩
  · rw [hfour] at hadds
    have hsame := hadds.unique (insert_bytes_adds 0 4) (by decide +kernel)
    rcases hbytes with hn | ⟨hn, -⟩ | hn
    · exact absurd (hsame 2) (by rw [hn]; decide)
    · exact absurd (hsame 2) (by rw [hn]; decide)
    · exact absurd (hsame 4) (by rw [hn]; decide)
  · rw [hone] at hadds
    have hsame := hadds.unique (insert_byte_adds 0) (by decide +kernel)
    rcases hbytes with hn | ⟨-, h20'⟩ | hn
    · exact absurd (hsame 1) (by rw [hn]; decide)
    · rw [h20] at h20'
      cases h20'
    · exact absurd (hsame 1) (by rw [hn]; decide)

/-- Exactly the bytes of an access are added, whatever the address and the set, unless it is an
extra load or store that looks like a swap or an exclusive access. -/
theorem touches_exactly_iff (lib : BitReaders) (h : Encodes w a) :
    TouchesExactly lib w a.bytes ↔ ¬Mistaken w :=
  ⟨fun hexact hm => hm.not_exact h hexact, fun hm _ _ => h.adds hm⟩

/-- A libpi with the functions that its parameters stand for. -/
def libpi : BitReaders where
  bits_get x lb ub := (x.extractLsb' lb (ub - lb + 1)).setWidth 32
  bit_isset x bit := (x.extractLsb' bit (bit - bit + 1)).setWidth 32
  bits_get_eq _ _ _ _ _ := rfl
  bit_isset_eq _ _ _ := rfl

instance : Decidable (Extra w) := inferInstanceAs (Decidable (_ ∧ _ ∧ _ ∧ _))

instance : Decidable (Mistaken w) := inferInstanceAs (Decidable (_ ∧ _ ∧ _ ∧ _))

/-- LDRD r2, [r1, #8] -/
theorem touches_exactly_iff_ldrd : TouchesExactly libpi 0xE1C120D8 8 :=
  (touches_exactly_iff (a := .doubleword) libpi ⟨by decide, by decide, by decide, by decide⟩).mpr
    (by decide)

/-- LDRH r0, [r1, r2] is taken for an LDREX: two bytes too many are added. -/
theorem register_halfword_mistaken : ¬∀ (lib : BitReaders) (w : Word) (a : Access), Encodes w a →
    TouchesExactly lib w a.bytes := by
  intro hall
  have hm : Mistaken 0xE19100B2 := by decide
  have hencodes : Encodes 0xE19100B2 .halfword := ⟨by decide, by decide, .inl (by decide)⟩
  exact hm.not_exact hencodes (hall libpi 0xE19100B2 .halfword hencodes)

end EquivChecker.TouchedBytes
