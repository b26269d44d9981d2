import EquivChecker.ByteMemory
import EquivChecker.Fault

/-!
# The heap allocator

`equiv-malloc.c` keeps a word of metadata in front of every payload, and the links of
a doubly linked list of the free blocks inside their payloads. Addresses and sizes are
natural numbers, and memory is addressed by byte. A read of a header through a null
pointer fails; a failure carries the heap that it happened in.
-/

namespace EquivChecker.Malloc

def STATUS_FREE : ℕ := 1
def STATUS_USED : ℕ := 0
def STATUS_MASK : ℕ := 1

/-- `~STATUS_MASK` -/
def SIZE_MASK : ℕ := 2 ^ 32 - 2

def MINIMUM_PAYLOAD : ℕ := 8 + 8
def ALIGNMENT : ℕ := 8
def MAX_REQUEST_SIZE : ℕ := 2 ^ 30
def SIZE_MAX : ℕ := 2 ^ 32 - 1

/-- `sizeof(metadata_t)` -/
def metadata_size : ℕ := 4

/-- `sizeof(header_t)` -/
def header_size : ℕ := 12

/-- The fields of `header_t`. -/
inductive Field
  | metadata
  | previous_free
  | next_free
  deriving DecidableEq, Repr

def Field.offset : Field → ℕ
  | metadata => 0
  | previous_free => 4
  | next_free => 8

/-- `heap_t`, with the memory that the heap lies in. -/
structure Heap where
  first_free : ℕ
  size : ℕ
  base : ℕ
  blocks_used : ℤ
  blocks_free : ℤ
  bytes_used : Word
  bytes_free : Word
  mem : Bytes
  /-- Some call of `remove_free_block` has left `first_free` NULL. -/
  emptied : Bool

abbrev Outcome (α : Type) := Except (Fault × Heap) α

namespace Heap

/-- A read through `header->field`. -/
def load (s : Heap) (header : ℕ) (f : Field) : ℕ := s.mem.read (header + f.offset)

/-- A store to `header->field`. -/
def store (s : Heap) (header : ℕ) (f : Field) (v : ℕ) : Heap :=
  { s with mem := s.mem.write (header + f.offset) v }

end Heap

open Heap Malloc.Field

def roundup (sz mult : ℕ) : ℕ := (sz + mult - 1) % 2 ^ 32 &&& (2 ^ 32 - 1 - (mult - 1))

def get_status (s : Heap) (header : ℕ) : ℕ := s.load header metadata &&& STATUS_MASK

def get_size (s : Heap) (header : ℕ) : ℕ := s.load header metadata &&& SIZE_MASK

def set_status (header status : ℕ) (s : Heap) : Heap :=
  s.store header metadata (get_size s header ||| (status &&& STATUS_MASK))

def set_size (header size : ℕ) (s : Heap) : Heap :=
  s.store header metadata ((size &&& SIZE_MASK) ||| get_status s header)

def get_payload_start (header : ℕ) : ℕ := header + metadata_size

def get_payload_end (s : Heap) (header : ℕ) : ℕ :=
  (header + (metadata_size + get_size s header)) % 2 ^ 32

def header_of_payload (payload : ℕ) : ℕ := payload - metadata_size

def make_block (loc status size : ℕ) (s : Heap) : Heap :=
  set_status loc status (set_size loc size s)

/-- The next free block, or none where the code returns NULL. -/
def next_free_block (s : Heap) (header : ℕ) : Option ℕ :=
  let next := s.load header next_free
  if next = 0 then none else some next

def remove_free_block (header : ℕ) (s : Heap) : Heap :=
  let previous := s.load header previous_free
  let next := s.load header next_free
  let s := if previous = 0 then { s with first_free := next } else s.store previous next_free next
  let s := if next ≠ 0 then s.store next previous_free previous else s
  { s with emptied := s.emptied || s.first_free == 0 }

def append_free_block (header : ℕ) (s : Heap) : Heap :=
  let old_first_free := s.first_free
  let s := if old_first_free ≠ 0 then
      ((s.store header next_free old_first_free).store header previous_free 0).store
        old_first_free previous_free header
    else s
  { s with first_free := header }

/-- The block to the right, or none off the heap. -/
def next_block (s : Heap) (header : ℕ) : Option ℕ :=
  let stop := get_payload_end s header
  if (s.base + s.size) % 2 ^ 32 ≤ stop then none else some stop

/-- The loop of `coalesce_right`; `next` is the block that was absorbed last. -/
def coalesce_loop (base : ℕ) : ℕ → ℕ → Heap → Outcome Heap
  | 0, _, s => .error (.spins, s)
  | fuel + 1, next, s =>
    match next_block s next with
    | none => .ok s
    | some next =>
      if get_status s next = STATUS_FREE then
        let new_space := get_size s next + metadata_size
        let s := set_size base (get_size s base + new_space) s
        let s := remove_free_block next s
        coalesce_loop base fuel next { s with
          blocks_free := s.blocks_free - 1
          bytes_free := s.bytes_free + BitVec.ofNat 32 metadata_size }
      else .ok s

/-- A heap has fewer blocks than bytes. -/
def coalesce_right (base : ℕ) (s : Heap) : Outcome Heap := coalesce_loop base s.size base s

/-- Callers have checked that the block has `needs` bytes. -/
def trim_block_if_possible (header needs : ℕ) (s : Heap) : Heap :=
  let size := get_size s header
  let excess := size - needs
  if metadata_size + MINIMUM_PAYLOAD ≤ excess then
    let s := set_size header needs s
    let excess_payload := excess - metadata_size
    let new_block := get_payload_end s header
    let s := make_block new_block STATUS_FREE excess_payload s
    let s := append_free_block new_block s
    { s with
      blocks_free := s.blocks_free + 1
      bytes_free := s.bytes_free + BitVec.ofNat 32 excess_payload
      bytes_used := s.bytes_used - BitVec.ofNat 32 excess }
  else s

def allocate_block (header needs : ℕ) (s : Heap) : ℕ × Heap :=
  let size := get_size s header
  let s := set_status header STATUS_USED s
  let s := { s with
    blocks_free := s.blocks_free - 1
    blocks_used := s.blocks_used + 1
    bytes_free := s.bytes_free - BitVec.ofNat 32 size
    bytes_used := s.bytes_used + BitVec.ofNat 32 size }
  let s := trim_block_if_possible header needs s
  let s := remove_free_block header s
  (get_payload_start header, s)

/-- The heap on the given memory, or none where the code returns 0. -/
def equiv_malloc_init (heap_start heap_size : ℕ) (mem : Bytes) : Option Heap :=
  let minimum_size := header_size + MINIMUM_PAYLOAD
  if heap_size < minimum_size then none
  else
    let s : Heap := {
      base := heap_start, first_free := heap_start, size := heap_size
      bytes_used := 0, blocks_used := 0, bytes_free := 0, blocks_free := 0
      mem, emptied := false }
    let first_block_size := heap_size - metadata_size
    let s := make_block s.base STATUS_FREE first_block_size s
    let s := s.store s.first_free previous_free 0
    let s := s.store s.first_free next_free 0
    some { s with bytes_free := BitVec.ofNat 32 first_block_size, blocks_free := 1 }

/-- The loop of `equiv_malloc` over the free blocks, from the current one on. -/
def find_best (s : Heap) (needs : ℕ) : ℕ → ℕ → ℕ → ℕ → Outcome ℕ
  | 0, _, _, _ => .error (.spins, s)
  | fuel + 1, current_block, best_block, best_difference =>
    if current_block = 0 then .error (.nullDeref, s)
    else
      let size := get_size s current_block
      let better := needs ≤ size ∧ size - needs < best_difference
      let best_block := if better then current_block else best_block
      let best_difference := if better then size - needs else best_difference
      match next_free_block s current_block with
      | none => .ok best_block
      | some next => find_best s needs fuel next best_block best_difference

def equiv_malloc (requested_size : ℕ) (s : Heap) : Outcome (ℕ × Heap) :=
  if requested_size = 0 ∨ MAX_REQUEST_SIZE < requested_size then .ok (0, s)
  else do
    let requested_size :=
      if requested_size < MINIMUM_PAYLOAD then MINIMUM_PAYLOAD else requested_size
    let needs := roundup requested_size ALIGNMENT
    let best_block ← find_best s needs s.size s.first_free 0 SIZE_MAX
    if best_block ≠ 0 then .ok (allocate_block best_block needs s)
    else .ok (0, s)

def equiv_free (ptr : ℕ) (s : Heap) : Outcome Heap :=
  if ptr = 0 then .ok s
  else
    let base := header_of_payload ptr
    let size := get_size s base
    let s := set_status base STATUS_FREE s
    let s := append_free_block base s
    coalesce_right base { s with
      blocks_used := s.blocks_used - 1
      blocks_free := s.blocks_free + 1
      bytes_free := s.bytes_free + BitVec.ofNat 32 size
      bytes_used := s.bytes_used - BitVec.ofNat 32 size }

/-- The part of `equiv_realloc` that absorbs the free blocks to the right, with the
additional space. -/
def absorb_right (header old_size : ℕ) (s : Heap) : Outcome (ℕ × Heap) :=
  match next_block s header with
  | none => .ok (0, s)
  | some right =>
    if get_status s right = STATUS_FREE then do
      let s ← coalesce_right right s
      let additional_space := get_size s right + metadata_size
      let s := remove_free_block right s
      let s := set_size header (old_size + additional_space) s
      .ok (additional_space, { s with
        blocks_free := s.blocks_free - 1
        bytes_free := s.bytes_free - BitVec.ofNat 32 (get_size s right)
        bytes_used := s.bytes_used + BitVec.ofNat 32 additional_space })
    else .ok (0, s)

def equiv_realloc (old_ptr new_size : ℕ) (s : Heap) : Outcome (ℕ × Heap) :=
  if old_ptr = 0 then equiv_malloc new_size s
  else if new_size = 0 then do
    let s ← equiv_free old_ptr s
    .ok (0, s)
  else
    let header := header_of_payload old_ptr
    if MAX_REQUEST_SIZE < new_size then .ok (0, s)
    else
      let needs := roundup new_size ALIGNMENT
      let old_size := get_size s header
      if needs ≤ old_size then .ok (old_ptr, s)
      else do
        let (additional_space, s) ← absorb_right header old_size s
        let old_size := old_size + additional_space
        if needs ≤ old_size then .ok (old_ptr, trim_block_if_possible header needs s)
        else do
          let (new_block, s) ← equiv_malloc needs s
          if new_block = 0 then .ok (0, s)
          else do
            let s ← equiv_free old_ptr { s with mem := s.mem.copy new_block old_ptr old_size }
            .ok (new_block, s)

/-- The loop of `validate_heap` over the free list, which counts the blocks in `n_free`, or
none where a block is not free. -/
def validate_free (s : Heap) : ℕ → ℕ → ℤ → Outcome (Option ℤ)
  | 0, _, _ => .error (.spins, s)
  | fuel + 1, current_free_block, n_free =>
    if current_free_block = 0 then .error (.nullDeref, s)
    else if get_status s current_free_block ≠ STATUS_FREE then .ok none
    else
      match next_free_block s current_free_block with
      | none => .ok (some (n_free + 1))
      | some next => validate_free s fuel next (n_free + 1)

/-- The loop of `validate_heap` over the blocks. -/
def validate_blocks (s : Heap) : ℕ → ℕ → Outcome Bool
  | 0, _ => .error (.spins, s)
  | fuel + 1, current_block =>
    let size := get_size s current_block
    if s.size ≤ size ∨ size = 0 then .ok false
    else
      match next_block s current_block with
      | none => .ok true
      | some next => validate_blocks s fuel next

def validate_heap (s : Heap) : Outcome ℕ :=
  let header_bytes := BitVec.ofInt 32 (s.blocks_used + s.blocks_free) * BitVec.ofNat 32 metadata_size
  let payload_bytes := s.bytes_used + s.bytes_free
  if s.blocks_used = 0 ∧ 0 < s.bytes_used then .ok 0
  else if s.blocks_free = 0 ∧ 0 < s.bytes_free then .ok 0
  else if header_bytes + payload_bytes ≠ BitVec.ofNat 32 s.size then .ok 0
  else do
    match ← validate_free s s.size s.first_free 0 with
    | none => .ok 0
    | some n_free =>
      if n_free ≠ s.blocks_free then .ok 0
      else do
        let valid ← validate_blocks s s.size s.base
        .ok (if valid then 1 else 0)

inductive Call
  | malloc (requested_size : ℕ)
  | realloc (old_ptr new_size : ℕ)
  | free (ptr : ℕ)
  deriving DecidableEq, Repr

/-- A call, with the pointer it returns. -/
def Call.run : Call → Heap → Outcome (ℕ × Heap)
  | malloc requested_size, s => equiv_malloc requested_size s
  | realloc old_ptr new_size, s => equiv_realloc old_ptr new_size s
  | free ptr, s => do
    let s ← equiv_free ptr s
    .ok (0, s)

end EquivChecker.Malloc
