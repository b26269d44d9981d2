import EquivChecker.Fault
import EquivChecker.WordMixing
import Mathlib.Data.Fin.VecNotation
import Mathlib.Data.List.GetD
import Mathlib.Tactic.Abel
import Mathlib.Tactic.Push

/-!
# XXH32

The vendored hash function of `xxhash.h`, over a whole input and over a stream of inputs.
Byte strings are lists, a pointer into one is the rest of it. A stream depends on the
lanes that its state starts with: after `XXH32_reset` it computes what the function does
on the whole input.
-/

namespace EquivChecker.XXHash

def XXH_PRIME32_1 : Word := 0x9E3779B1
def XXH_PRIME32_2 : Word := 0x85EBCA77
def XXH_PRIME32_3 : Word := 0xC2B2AE3D
def XXH_PRIME32_4 : Word := 0x27D4EB2F
def XXH_PRIME32_5 : Word := 0x165667B1

def XXH_readLE32 (ptr : List (BitVec 8)) : Word :=
  ptr.getD 3 0 ++ ptr.getD 2 0 ++ ptr.getD 1 0 ++ ptr.getD 0 0

def XXH32_round (acc input : Word) : Word :=
  (acc + input * XXH_PRIME32_2).rotateLeft 13 * XXH_PRIME32_1

def XXH32_avalanche (hash : Word) : Word :=
  let hash := hash ^^^ hash >>> 15
  let hash := hash * XXH_PRIME32_2
  let hash := hash ^^^ hash >>> 13
  let hash := hash * XXH_PRIME32_3
  hash ^^^ hash >>> 16

def XXH_PROCESS1 (hash : Word) (ptr : List (BitVec 8)) : Word :=
  (hash + (ptr.getD 0 0).setWidth 32 * XXH_PRIME32_5).rotateLeft 11 * XXH_PRIME32_1

def XXH_PROCESS4 (hash : Word) (ptr : List (BitVec 8)) : Word :=
  (hash + XXH_readLE32 ptr * XXH_PRIME32_3).rotateLeft 17 * XXH_PRIME32_4

/-- A loop of `XXH32_finalize`, of `n` steps over `size` bytes each. -/
def process (step : Word → List (BitVec 8) → Word) (size : ℕ) :
    ℕ → Word → List (BitVec 8) → Word × List (BitVec 8)
  | 0, hash, ptr => (hash, ptr)
  | n + 1, hash, ptr => process step size n (step hash ptr) (ptr.drop size)

def XXH32_finalize (hash : Word) (ptr : List (BitVec 8)) (len : ℕ) : Word :=
  let len := len % 16
  let (hash, ptr) := process XXH_PROCESS4 4 (len / 4) hash ptr
  let (hash, _) := process XXH_PROCESS1 1 (len % 4) hash ptr
  XXH32_avalanche hash

/-- The four accumulator lanes. -/
abbrev Lanes := Fin 4 → Word

/-- Each lane takes four of 16 bytes. -/
def rounds (v : Lanes) (p : List (BitVec 8)) : Lanes :=
  fun i => XXH32_round (v i) (XXH_readLE32 (p.drop (4 * i)))

/-- The loop over `n` blocks of 16 bytes. -/
def stripes : ℕ → Lanes → List (BitVec 8) → Lanes × List (BitVec 8)
  | 0, v, p => (v, p)
  | n + 1, v, p => stripes n (rounds v p) (p.drop 16)

def merge (v : Lanes) : Word :=
  (v 0).rotateLeft 1 + (v 1).rotateLeft 7 + (v 2).rotateLeft 12 + (v 3).rotateLeft 18

def lanes (seed : Word) : Lanes :=
  ![seed + XXH_PRIME32_1 + XXH_PRIME32_2, seed + XXH_PRIME32_2, seed + 0, seed - XXH_PRIME32_1]

def XXH32_endian_align (input : List (BitVec 8)) (seed : Word) : Word :=
  let len := input.length
  let (h32, input) :=
    if 16 ≤ len then
      let (v, input) := stripes (len / 16) (lanes seed) input
      (merge v, input)
    else (seed + XXH_PRIME32_5, input)
  XXH32_finalize (h32 + BitVec.ofNat 32 len) input (len % 16)

def XXH32 (input : List (BitVec 8)) (seed : Word) : Word := XXH32_endian_align input seed

/-- The reserved field is never read. -/
structure XXH32_state where
  total_len_32 : Word
  large_len : Word
  v : Lanes
  mem32 : List (BitVec 8)
  memsize : Word

/-- `sizeof(XXH32_state_t)` -/
def state_size : ℕ := 48

/-- The state is what the memory that `kmalloc` returns holds. -/
def XXH32_createState (kmalloc : ℕ → List (BitVec 8)) : XXH32_state :=
  let block := kmalloc state_size
  { total_len_32 := XXH_readLE32 block
    large_len := XXH_readLE32 (block.drop 4)
    v := fun i => XXH_readLE32 (block.drop (8 + 4 * i))
    mem32 := (block.drop 24).take 16
    memsize := XXH_readLE32 (block.drop 40) }

def XXH32_reset (seed : Word) : XXH32_state :=
  { total_len_32 := 0, large_len := 0, v := lanes seed, mem32 := List.replicate 16 0, memsize := 0 }

def memcpy (dst : List (BitVec 8)) (at_ : ℕ) (src : List (BitVec 8)) : List (BitVec 8) :=
  dst.take at_ ++ src ++ dst.drop (at_ + src.length)

/-- The body of `XXH32_update` for an input that is not NULL. -/
def update (state : XXH32_state) (p : List (BitVec 8)) : XXH32_state :=
  let len := BitVec.ofNat 32 p.length
  let total_len_32 := state.total_len_32 + len
  let state := { state with
    total_len_32
    large_len := state.large_len ||| (if 16#32 ≤ len ∨ 16#32 ≤ total_len_32 then 1#32 else 0#32) }
  if state.memsize + len < 16#32 then
    { state with
      mem32 := memcpy state.mem32 state.memsize.toNat p
      memsize := state.memsize + len }
  else
    let (state, p) :=
      if state.memsize ≠ 0 then
        let size := 16 - state.memsize.toNat
        let mem32 := memcpy state.mem32 state.memsize.toNat (p.take size)
        ({ state with mem32, v := rounds state.v mem32, memsize := 0 }, p.drop size)
      else (state, p)
    let (v, p) := stripes (p.length / 16) state.v p
    if p ≠ [] then { state with v, mem32 := memcpy state.mem32 0 p, memsize := BitVec.ofNat 32 p.length }
    else { state with v }

/-- `input` is the address of the bytes. -/
def XXH32_update (state : XXH32_state) (input : Word) (bytes : List (BitVec 8)) :
    Except Fault XXH32_state :=
  if input = 0 then
    -- `XXH_ASSERT(len == 0)`: with the default `XXH_DEBUGLEVEL` of 0 nothing is checked, and the
    -- compiler may assume it, so that the fault stands for undefined behaviour
    if bytes.length = 0 then .ok state else .error (.panic "len == 0")
  else .ok (update state bytes)

def XXH32_digest (state : XXH32_state) : Word :=
  let h32 := if state.large_len ≠ 0 then merge state.v else state.v 2 + XXH_PRIME32_5
  XXH32_finalize (h32 + state.total_len_32) state.mem32 state.memsize.toNat

/-- What is computed from an input when the lanes start with `v`. -/
def hashFrom (v : Lanes) (input : List (BitVec 8)) : Word :=
  let (v', rest) := stripes (input.length / 16) v input
  XXH32_finalize ((if 16 ≤ input.length then merge v' else v 2 + XXH_PRIME32_5) +
    BitVec.ofNat 32 input.length) rest (input.length % 16)

theorem XXH32_eq (input : List (BitVec 8)) (seed : Word) : XXH32 input seed = hashFrom (lanes seed) input := by
  by_cases hlen : 16 ≤ input.length
  · simp only [XXH32, XXH32_endian_align, hashFrom, if_pos hlen]
  · have hzero : input.length / 16 = 0 := by omega
    have hseed : lanes seed 2 = seed := BitVec.add_zero seed
    simp only [XXH32, XXH32_endian_align, hashFrom, if_neg hlen, hzero, stripes, hseed]

section Stream
variable {v v₀ : Lanes} {p bytes : List (BitVec 8)} {n : ℕ} {state : XXH32_state}

theorem stripes_snd (n : ℕ) (v : Lanes) (p : List (BitVec 8)) : (stripes n v p).2 = p.drop (16 * n) := by
  induction n generalizing v p with
  | zero => rfl
  | succ n ih => rw [stripes, ih, List.drop_drop, Nat.mul_succ, Nat.add_comm]

/-- The last of the blocks. -/
theorem stripes_succ (n : ℕ) (v : Lanes) (p : List (BitVec 8)) :
    (stripes (n + 1) v p).1 = rounds (stripes n v p).1 (p.drop (16 * n)) := by
  induction n generalizing v p with
  | zero => rfl
  | succ n ih => rw [stripes, ih, List.drop_drop, stripes, Nat.mul_succ, Nat.add_comm 16]

theorem readLE32_append {a b : List (BitVec 8)} (h : 4 ≤ a.length) :
    XXH_readLE32 (a ++ b) = XXH_readLE32 a := by
  simp only [XXH_readLE32, List.getD_append _ _ _ _ (show 0 < a.length by omega),
    List.getD_append _ _ _ _ (show 1 < a.length by omega),
    List.getD_append _ _ _ _ (show 2 < a.length by omega),
    List.getD_append _ _ _ _ (show 3 < a.length by omega)]

theorem rounds_append {a b : List (BitVec 8)} (h : 16 ≤ a.length) : rounds v (a ++ b) = rounds v a := by
  funext i
  have hi : 4 * i.val + 4 ≤ a.length := by omega
  rw [rounds, rounds, List.drop_append_of_le_length (by omega), readLE32_append (by simp; omega)]

/-- What comes behind the blocks does not matter. -/
theorem stripes_append {a b : List (BitVec 8)} (h : 16 * n ≤ a.length) :
    (stripes n v (a ++ b)).1 = (stripes n v a).1 := by
  induction n generalizing v a with
  | zero => rfl
  | succ n ih =>
    rw [stripes, stripes, rounds_append (by omega), List.drop_append_of_le_length (by omega),
      ih (by simp; omega)]

/-- A state that started with the lanes `v₀` has been given the bytes. -/
structure Absorbed (v₀ : Lanes) (bytes : List (BitVec 8)) (state : XXH32_state) : Prop where
  total : state.total_len_32 = BitVec.ofNat 32 bytes.length
  large : state.large_len ≠ 0 ↔ 16 ≤ bytes.length
  lanes : state.v = (stripes (bytes.length / 16) v₀ bytes).1
  size : state.memsize = BitVec.ofNat 32 (bytes.length % 16)
  buffer : state.mem32.take (bytes.length % 16) = bytes.drop (16 * (bytes.length / 16))
  room : state.mem32.length = 16

theorem or_one_ne_zero (x : Word) (c : Prop) [Decidable c] :
    x ||| (if c then 1#32 else 0#32) ≠ 0 ↔ x ≠ 0 ∨ c := by
  by_cases hc : c
  · have hne : x ||| 1#32 ≠ 0#32 := by
      intro h
      have hbit := congrArg (·.getLsbD 0) h
      simp at hbit
    simp [hc, hne]
  · simp [hc]

theorem sixteen_le_ofNat (n : ℕ) : 16#32 ≤ BitVec.ofNat 32 n ↔ 16 ≤ n % 2 ^ 32 := by
  rw [BitVec.le_def, BitVec.toNat_ofNat]
  rfl

/-- The flag that is set once 16 bytes have been seen. -/
def seen (state : XXH32_state) : Word :=
  state.large_len ||| (if 16#32 ≤ 1#32 ∨ 16#32 ≤ state.total_len_32 + 1#32 then 1#32 else 0#32)

/-- A byte that goes into the buffer. -/
theorem update_fill (h : state.memsize.toNat + 1 < 16) (b : BitVec 8) : update state [b] =
    { state with
      total_len_32 := state.total_len_32 + 1#32
      large_len := seen state
      mem32 := memcpy state.mem32 state.memsize.toNat [b]
      memsize := state.memsize + 1#32 } := by
  have hlt : state.memsize + 1#32 < 16#32 := by
    rw [BitVec.lt_def, BitVec.toNat_add]
    exact (Nat.mod_le _ _).trans_lt h
  rw [update]
  exact if_pos hlt

/-- A byte that fills the buffer, which goes into the lanes. -/
theorem update_full (h : state.memsize.toNat = 15) (b : BitVec 8) : update state [b] =
    { total_len_32 := state.total_len_32 + 1#32
      large_len := seen state
      v := rounds state.v (memcpy state.mem32 15 [b])
      mem32 := memcpy state.mem32 15 [b]
      memsize := 0 } := by
  have hsize : state.memsize = 15#32 := BitVec.eq_of_toNat_eq h
  have hge : ¬state.memsize + 1#32 < 16#32 := by
    rw [hsize]
    decide
  have hne : state.memsize ≠ 0 := by
    rw [hsize]
    decide
  rw [update]
  refine (if_neg hge).trans ?_
  rw [if_pos hne]
  have hnone : (List.drop (16 - 15) [b]).length / 16 = 0 := Nat.zero_div 16
  simp only [h, hnone]
  rfl

theorem Absorbed.seen (h : Absorbed v₀ bytes state) : seen state ≠ 0 ↔ 16 ≤ bytes.length + 1 := by
  have htotal : state.total_len_32 + 1#32 = BitVec.ofNat 32 (bytes.length + 1) := by
    rw [h.total, BitVec.ofNat_add]
  have hone : ¬16#32 ≤ 1#32 := by decide
  rw [XXHash.seen, or_one_ne_zero, h.large, htotal, or_iff_right hone, sixteen_le_ofNat]
  have hle := Nat.mod_le (bytes.length + 1) (2 ^ 32)
  constructor
  · omega
  · intro hlen
    by_cases heq : bytes.length + 1 = 16
    · rw [heq]
      exact .inr le_rfl
    · exact .inl (by omega)

theorem memcpy_take {mem32 : List (BitVec 8)} {m : ℕ} (hm : m + 1 ≤ mem32.length) (b : BitVec 8) :
    (memcpy mem32 m [b]).take (m + 1) = mem32.take m ++ [b] ∧ (memcpy mem32 m [b]).length = mem32.length := by
  have hlen : (mem32.take m ++ [b]).length = m + 1 := by
    simp
    omega
  constructor
  · rw [memcpy, ← hlen, List.take_left]
  · rw [memcpy, List.length_append, hlen, List.length_drop, List.length_singleton]
    omega

/-- One byte more: it goes into the buffer, and a full buffer into the lanes. -/
theorem Absorbed.update (h : Absorbed v₀ bytes state) (b : BitVec 8) :
    Absorbed v₀ (bytes ++ [b]) (update state [b]) := by
  have hlen : (bytes ++ [b]).length = bytes.length + 1 := List.length_append
  have hsize : state.memsize.toNat = bytes.length % 16 := by
    rw [h.size, BitVec.toNat_ofNat]
    omega
  have htotal : state.total_len_32 + 1#32 = BitVec.ofNat 32 (bytes ++ [b]).length := by
    rw [hlen, h.total, BitVec.ofNat_add]
  have hseen : XXHash.seen state ≠ 0 ↔ 16 ≤ (bytes ++ [b]).length := by rw [hlen, h.seen]
  have hblocks : 16 * (bytes.length / 16) ≤ bytes.length := Nat.mul_div_le _ _
  have hrest : (bytes ++ [b]).drop (16 * (bytes.length / 16)) =
      state.mem32.take (bytes.length % 16) ++ [b] := by
    rw [List.drop_append_of_le_length hblocks, h.buffer]
  have hlanes : (stripes (bytes.length / 16) v₀ (bytes ++ [b])).1 = state.v := by
    rw [stripes_append hblocks, h.lanes]
  have hmod : bytes.length % 16 < 16 := Nat.mod_lt _ (by decide)
  obtain ⟨htake, hroom⟩ := memcpy_take (show bytes.length % 16 + 1 ≤ state.mem32.length by
    rw [h.room]
    omega) b
  rw [h.room] at hroom
  by_cases hfull : bytes.length % 16 = 15
  · have hdiv : (bytes.length + 1) / 16 = bytes.length / 16 + 1 := by omega
    have hzero : (bytes.length + 1) % 16 = 0 := by omega
    have hbuffer : memcpy state.mem32 15 [b] = (bytes ++ [b]).drop (16 * (bytes.length / 16)) := by
      rw [hfull] at htake hroom
      rw [hrest, hfull, ← htake, List.take_of_length_le hroom.le]
    rw [hfull] at hroom
    rw [update_full (hsize.trans hfull)]
    refine ⟨htotal, hseen, ?_, ?_, ?_, hroom⟩
    · rw [hlen, hdiv, stripes_succ, hlanes, hbuffer]
    · rw [hlen, hzero]
      rfl
    · rw [hlen, hzero, List.take_zero, List.drop_of_length_le]
      omega
  · have hdiv : (bytes.length + 1) / 16 = bytes.length / 16 := by omega
    have hnext : (bytes.length + 1) % 16 = bytes.length % 16 + 1 := by omega
    rw [update_fill (by omega), hsize]
    refine ⟨htotal, hseen, ?_, ?_, ?_, hroom⟩
    · rw [hlen, hdiv, hlanes]
    · rw [hlen, hnext, BitVec.ofNat_add, h.size]
    · rw [hlen, hnext, hdiv, hrest, htake]

theorem process_append {step : Word → List (BitVec 8) → Word} {size : ℕ}
    (hstep : ∀ hash {a : List (BitVec 8)} b, size ≤ a.length → step hash (a ++ b) = step hash a)
    {n : ℕ} {hash : Word} {a : List (BitVec 8)} (b : List (BitVec 8)) (h : size * n ≤ a.length) :
    process step size n hash (a ++ b) =
      ((process step size n hash a).1, (process step size n hash a).2 ++ b) := by
  induction n generalizing hash a with
  | zero => rfl
  | succ n ih =>
    rw [Nat.mul_succ] at h
    rw [process, process, hstep hash b (by omega), List.drop_append_of_le_length (by omega),
      ih (by simp; omega)]

theorem process_snd (step : Word → List (BitVec 8) → Word) (size n : ℕ) (hash : Word)
    (a : List (BitVec 8)) : (process step size n hash a).2 = a.drop (size * n) := by
  induction n generalizing hash a with
  | zero => rfl
  | succ n ih => rw [process, ih, List.drop_drop, Nat.mul_succ, Nat.add_comm]

/-- Only what was put into the buffer is read. -/
theorem finalize_append {a : List (BitVec 8)} (b : List (BitVec 8)) (hash : Word)
    (hlen : a.length < 16) :
    XXH32_finalize hash (a ++ b) a.length = XXH32_finalize hash a a.length := by
  have hfour : ∀ hash {a : List (BitVec 8)} b, 4 ≤ a.length →
      XXH_PROCESS4 hash (a ++ b) = XXH_PROCESS4 hash a := by
    intro hash a b ha
    rw [XXH_PROCESS4, XXH_PROCESS4, readLE32_append ha]
  have hone : ∀ hash {a : List (BitVec 8)} b, 1 ≤ a.length →
      XXH_PROCESS1 hash (a ++ b) = XXH_PROCESS1 hash a := by
    intro hash a b ha
    rw [XXH_PROCESS1, XXH_PROCESS1, List.getD_append _ _ _ _ ha]
  have hmod : a.length % 16 = a.length := Nat.mod_eq_of_lt hlen
  simp only [XXH32_finalize, hmod]
  rw [process_append hfour b (Nat.mul_div_le _ _)]
  simp only
  rw [process_append hone b]
  rw [process_snd, List.length_drop]
  omega

theorem Absorbed.digest (h : Absorbed v₀ bytes state) : XXH32_digest state = hashFrom v₀ bytes := by
  have hmod : bytes.length % 16 < 16 := Nat.mod_lt _ (by decide)
  have hsize : state.memsize.toNat = bytes.length % 16 := by
    rw [h.size, BitVec.toNat_ofNat]
    omega
  have hlen : (bytes.drop (16 * (bytes.length / 16))).length = bytes.length % 16 := by
    rw [List.length_drop]
    omega
  have hbuffer : state.mem32 = bytes.drop (16 * (bytes.length / 16)) ++
      state.mem32.drop (bytes.length % 16) := by
    rw [← h.buffer, List.take_append_drop]
  have hlanes : (if state.large_len ≠ 0 then merge state.v else state.v 2 + XXH_PRIME32_5) =
      if 16 ≤ bytes.length then merge (stripes (bytes.length / 16) v₀ bytes).1
      else v₀ 2 + XXH_PRIME32_5 := by
    simp only [h.large, h.lanes]
    by_cases hlong : 16 ≤ bytes.length
    · rw [if_pos hlong, if_pos hlong]
    · have hzero : bytes.length / 16 = 0 := by omega
      rw [if_neg hlong, if_neg hlong, hzero, stripes]
  rw [XXH32_digest, hashFrom]
  simp only [hlanes, h.total, hsize, stripes_snd]
  rw [hbuffer, ← hlen, finalize_append _ _ (hlen ▸ hmod)]

/-- Bytes given one by one. -/
theorem absorbed_foldl (h : Absorbed v₀ [] state) (bytes : List (BitVec 8)) :
    Absorbed v₀ bytes (bytes.foldl (fun state b => XXHash.update state [b]) state) := by
  induction bytes using List.reverseRecOn with
  | nil => exact h
  | append_singleton bytes b ih =>
    rw [List.foldl_append]
    exact ih.update b

/-- A stream that starts with a reset computes the function on the whole input. -/
theorem reset_digest (seed : Word) (bytes : List (BitVec 8)) :
    XXH32_digest (bytes.foldl (fun state b => XXHash.update state [b]) (XXH32_reset seed)) =
      XXH32 bytes seed := by
  have hreset : Absorbed (XXHash.lanes seed) [] (XXH32_reset seed) :=
    ⟨rfl, by simp [XXH32_reset], rfl, rfl, rfl, rfl⟩
  rw [(absorbed_foldl hreset bytes).digest, XXH32_eq]

end Stream

section Mixing
variable {v v' : Lanes} {n : ℕ}

open WordMixing

theorem round_injective (input : Word) : Function.Injective fun acc => XXH32_round acc input := by
  have hmul := mul_injective (p := XXH_PRIME32_1) (q := 0x0E8B2F51#32) (by decide)
  have hrot := rotateLeft_injective (w := 32) (r := 13) (by decide)
  intro acc acc' h
  exact (BitVec.add_left_inj _).mp (hrot (hmul h))

theorem process1_injective (ptr : List (BitVec 8)) : Function.Injective (XXH_PROCESS1 · ptr) := by
  have hmul := mul_injective (p := XXH_PRIME32_1) (q := 0x0E8B2F51#32) (by decide)
  have hrot := rotateLeft_injective (w := 32) (r := 11) (by decide)
  intro hash hash' h
  exact (BitVec.add_left_inj _).mp (hrot (hmul h))

theorem process4_injective (ptr : List (BitVec 8)) : Function.Injective (XXH_PROCESS4 · ptr) := by
  have hmul := mul_injective (p := XXH_PRIME32_4) (q := 0xA0FE3BCF#32) (by decide)
  have hrot := rotateLeft_injective (w := 32) (r := 17) (by decide)
  intro hash hash' h
  exact (BitVec.add_left_inj _).mp (hrot (hmul h))

theorem avalanche_injective : Function.Injective XXH32_avalanche := by
  have hmul₂ := mul_injective (p := XXH_PRIME32_2) (q := 0xB6C92F47#32) (by decide)
  have hmul₃ := mul_injective (p := XXH_PRIME32_3) (q := 0xA89ED915#32) (by decide)
  intro hash hash' h
  exact xor_shift_injective (by decide) (hmul₂ (xor_shift_injective (by decide) (hmul₃
    (xor_shift_injective (by decide) h))))

theorem process_injective {step : Word → List (BitVec 8) → Word} {size : ℕ}
    (hstep : ∀ ptr, Function.Injective (step · ptr)) (n : ℕ) (ptr : List (BitVec 8)) :
    Function.Injective fun hash => (process step size n hash ptr).1 := by
  induction n generalizing ptr with
  | zero => exact fun _ _ h => h
  | succ n ih => exact (ih (ptr.drop size)).comp (hstep ptr)

/-- The last bytes lose nothing of the hash. -/
theorem finalize_injective (ptr : List (BitVec 8)) (len : ℕ) :
    Function.Injective fun hash => XXH32_finalize hash ptr len := by
  intro hash hash' h
  simp only [XXH32_finalize, process_snd] at h
  exact process_injective process4_injective _ _
    (process_injective process1_injective _ _ (avalanche_injective h))

/-- Lanes that differ still differ behind the same blocks. -/
theorem stripes_injective (p : List (BitVec 8)) (i : Fin 4) (h : v i ≠ v' i) :
    (stripes n v p).1 i ≠ (stripes n v' p).1 i := by
  induction n generalizing v v' p with
  | zero => exact h
  | succ n ih => exact ih _ fun heq => h (round_injective _ heq)

/-- The four bytes of a word, lowest first. -/
def littleEndian (x : Word) : List (BitVec 8) :=
  [x.extractLsb' 0 8, x.extractLsb' 8 8, x.extractLsb' 16 8, x.extractLsb' 24 8]

theorem readLE32_littleEndian (x : Word) (p : List (BitVec 8)) :
    XXH_readLE32 (littleEndian x ++ p) = x := by
  simp only [littleEndian, XXH_readLE32, List.cons_append, List.getD_cons_succ, List.getD_cons_zero]
  rw [BitVec.extractLsb'_append_extractLsb'_eq_extractLsb' (show 24 = 16 + 8 from rfl),
    BitVec.extractLsb'_append_extractLsb'_eq_extractLsb' (show 16 = 8 + 8 from rfl),
    BitVec.extractLsb'_append_extractLsb'_eq_extractLsb' (show 8 = 0 + 8 from rfl)]
  exact BitVec.extractLsb'_eq_self

/-- How the first lane enters the hash. -/
def turn (y : Word) : Word := (y.rotateLeft 13 * XXH_PRIME32_1).rotateLeft 1

theorem turn_not_shift {d c : Word} (hd : d ≠ 0#32) : ¬∀ y, turn (y + d) = turn y + c :=
  not_shift (by decide) hd

theorem readLE32_replicate (n : ℕ) : XXH_readLE32 (List.replicate n 0) = 0 := by
  simp only [XXH_readLE32, List.getD_eq_getElem?_getD, List.getElem?_getD_replicate_default_eq]
  rfl

/-- An input of `n` blocks that are 0 but for a word at the start of the last one, and some
bytes behind them. -/
def withWord (n : ℕ) (rest : List (BitVec 8)) (x : Word) : List (BitVec 8) :=
  List.replicate (16 * n) 0 ++ (littleEndian x ++ List.replicate 12 0) ++ rest

theorem length_withWord (n : ℕ) (rest : List (BitVec 8)) (x : Word) :
    (withWord n rest x).length = 16 * (n + 1) + rest.length := by
  simp [withWord, littleEndian]
  omega

/-- What the last block adds to the hash depends on the word through the first lane only. -/
theorem merge_withWord (n : ℕ) (v : Lanes) (rest : List (BitVec 8)) : ∃ c, ∀ x,
    merge (stripes (n + 1) v (withWord n rest x)).1 =
      turn ((stripes n v (List.replicate (16 * n) 0)).1 0 + x * XXH_PRIME32_2) + c := by
  have hlast : ∀ x, (stripes (n + 1) v (withWord n rest x)).1 =
      rounds (stripes n v (List.replicate (16 * n) 0)).1 (littleEndian x ++ List.replicate 12 0) := by
    intro x
    have hdrop : (withWord n rest x).drop (16 * n) = (littleEndian x ++ List.replicate 12 0) ++ rest := by
      rw [withWord, List.append_assoc, List.drop_left' (List.length_replicate)]
    rw [stripes_succ, hdrop, rounds_append (by simp [littleEndian]), withWord, List.append_assoc,
      stripes_append (by simp)]
  generalize (stripes n v (List.replicate (16 * n) 0)).1 = u at *
  have hzero : ∀ x (i : Fin 4), i ≠ 0 →
      rounds u (littleEndian x ++ List.replicate 12 0) i = XXH32_round (u i) 0 := by
    intro x i hi
    have hpos : 4 ≤ 4 * i.val := by omega
    have hread : XXH_readLE32 ((littleEndian x ++ List.replicate 12 0).drop (4 * i)) = 0 := by
      rw [List.drop_append, List.drop_of_length_le (l := littleEndian x) hpos, List.drop_replicate]
      exact readLE32_replicate _
    rw [rounds, hread]
  refine ⟨(XXH32_round (u 1) 0).rotateLeft 7 + (XXH32_round (u 2) 0).rotateLeft 12 +
    (XXH32_round (u 3) 0).rotateLeft 18, fun x => ?_⟩
  rw [hlast, merge, hzero x 1 (by decide), hzero x 2 (by decide), hzero x 3 (by decide)]
  simp only [rounds, Fin.val_zero, Nat.mul_zero, List.drop_zero, readLE32_littleEndian, BitVec.add_assoc]
  rfl

/-- Lanes that differ are told apart by some input of any length from 16 on. -/
theorem exists_hashFrom_ne (hv : v 0 ≠ v' 0) (hn : 16 ≤ n) :
    ∃ bytes, bytes.length = n ∧ hashFrom v bytes ≠ hashFrom v' bytes := by
  obtain ⟨k, hk⟩ : ∃ k, n / 16 = k + 1 := ⟨n / 16 - 1, by omega⟩
  have hlen : ∀ x, (withWord k (List.replicate (n % 16) 0) x).length = n := by
    intro x
    rw [length_withWord, List.length_replicate]
    omega
  by_contra hall
  push Not at hall
  have hsame := fun x => hall _ (hlen x)
  simp only [hashFrom, hlen, stripes_snd, hk, if_pos hn] at hsame
  obtain ⟨c, hc⟩ := merge_withWord k v (List.replicate (n % 16) 0)
  obtain ⟨c', hc'⟩ := merge_withWord k v' (List.replicate (n % 16) 0)
  have hne := stripes_injective (n := k) (List.replicate (16 * k) 0) 0 hv
  generalize (stripes k v (List.replicate (16 * k) 0)).1 0 = a at *
  generalize (stripes k v' (List.replicate (16 * k) 0)).1 0 = a' at *
  have hturn : ∀ x, turn (a + x * XXH_PRIME32_2) + c = turn (a' + x * XXH_PRIME32_2) + c' := by
    intro x
    rw [← hc, ← hc']
    exact (BitVec.add_left_inj _).mp (finalize_injective _ _ (hsame x))
  refine turn_not_shift (d := a - a') (c := c' - c) (fun hd => hne ?_) fun y => ?_
  · exact sub_eq_zero.mp hd
  · -- the word that brings the second lane to `y`
    have hword : (y - a') * 0xB6C92F47#32 * XXH_PRIME32_2 = y - a' := by
      rw [mul_assoc, show 0xB6C92F47#32 * XXH_PRIME32_2 = 1 by decide, mul_one]
    have hy := hturn ((y - a') * 0xB6C92F47#32)
    rw [hword, show a + (y - a') = y + (a - a') by abel, add_sub_cancel] at hy
    rw [← add_sub_assoc (turn y)]
    exact eq_sub_of_add_eq hy

end Mixing

end EquivChecker.XXHash
