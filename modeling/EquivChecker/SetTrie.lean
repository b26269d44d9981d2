import EquivChecker.Fault
import Mathlib.Data.List.FinRange

/-!
# Sets of 32-bit values as tries

A node covers five bits of a value: `mask` tells which of its 32 children are present,
`offset` is the number of bits below. The nodes of the root have offset 30, the leaves
offset 0. Nodes lie in a heap; `equiv_malloc` is represented by the addresses that it
will return, of which NULL and addresses in use count as failures. The recursion of
every operation is bounded by the seven levels.
-/

namespace EquivChecker

abbrev Ptr := ℕ

abbrev NULL : Ptr := 0

structure SetT where
  mask : Word
  offset : ℕ
  children : Fin 32 → Ptr

structure SetHeap where
  nodes : Ptr → Option SetT
  /-- What `equiv_malloc` will return. -/
  supply : List Ptr

abbrev SetM := StateT SetHeap (Except Fault)

namespace SetTrie

def MAX_OFFSET : ℕ := 30

def levels : ℕ := 7

def allocation_failed : Fault := .panic "set allocation failed!"

def load (p : Ptr) : SetM SetT := fun h =>
  match h.nodes p with
  | some n => .ok (n, h)
  | none => .error .nullDeref

/-- Overwrite a node in use. -/
def store (p : Ptr) (n : SetT) : SetM PUnit := fun h =>
  match h.nodes p with
  | some _ => .ok ((), { h with nodes := Function.update h.nodes p (some n) })
  | none => .error .nullDeref

def equiv_free (p : Ptr) : SetM PUnit := fun h =>
  match h.nodes p with
  | some _ => .ok ((), { h with nodes := Function.update h.nodes p none })
  | none => .error .nullDeref

def fail {α : Type} (e : Fault) : SetM α := fun _ => .error e

/-- `assert` -/
def check (b : Bool) : SetM PUnit := if b then pure () else fail (.panic "assert")

/-- `set_mk` -/
def set_mk (offset : ℕ) : SetT := ⟨0, offset, fun _ => NULL⟩

def set_alloc_offset (offset : ℕ) : SetM Ptr := fun h =>
  match h.supply with
  | [] => .error allocation_failed
  | p :: supply =>
    if p = NULL ∨ (h.nodes p).isSome then .error allocation_failed
    else .ok (p, ⟨Function.update h.nodes p (some (set_mk offset)), supply⟩)

def set_alloc : SetM Ptr := set_alloc_offset MAX_OFFSET

/-- `children[i] = child` -/
def setChild (s : Ptr) (i : Fin 32) (child : Ptr) : SetM PUnit := do
  let n ← load s
  store s { n with children := Function.update n.children i child }

def mask_has (mask : Word) (bit : Fin 32) : Bool := mask &&& (1#32 <<< bit.val) != 0#32

/-- `(v >> offset) & 0x1F` -/
def index (v : Word) (offset : ℕ) : Fin 32 := Fin.ofNat 32 (v >>> offset).toNat

def set_free : ℕ → Ptr → SetM PUnit
  | 0, _ => fail .spins
  | fuel + 1, s => do
    forM (List.finRange 32) fun i => do
      let n ← load s
      if n.children i ≠ NULL then set_free fuel (n.children i)
    equiv_free s

def set_copy : ℕ → Ptr → Ptr → SetM PUnit
  | 0, _, _ => fail .spins
  | fuel + 1, dst, src => do
    let x ← load src
    let d ← load dst
    store dst { d with offset := x.offset, mask := x.mask }
    if 0 < x.offset then
      forM (List.finRange 32) fun i => do
        let x ← load src
        if mask_has x.mask i then
          let child ← set_alloc_offset (x.offset - 5)
          setChild dst i child
          set_copy fuel child (x.children i)

/-- Returns whether `v` was present. -/
def set_insert : ℕ → Ptr → Word → SetM Word
  | 0, _, _ => fail .spins
  | fuel + 1, s, v => do
    let n ← load s
    let i := index v n.offset
    let bit := 1#32 <<< i.val
    let present := n.mask &&& bit
    store s { n with mask := n.mask ||| bit }
    if 0 < n.offset then
      if present = 0#32 then
        let child ← set_alloc_offset (n.offset - 5)
        setChild s i child
      let n ← load s
      set_insert fuel (n.children i) v
    else pure present

def set_lookup : ℕ → Ptr → Word → SetM Word
  | 0, _, _ => fail .spins
  | fuel + 1, s, v => do
    let n ← load s
    let i := index v n.offset
    let present := n.mask &&& (1#32 <<< i.val)
    if present = 0#32 then pure 0
    else if n.offset = 0 then pure (present >>> i.val)
    else set_lookup fuel (n.children i) v

def set_union : ℕ → Ptr → Ptr → Ptr → SetM PUnit
  | 0, _, _, _ => fail .spins
  | fuel + 1, z, x, y => do
    let nz ← load z
    let nx ← load x
    let ny ← load y
    check (nz.offset == nx.offset && nx.offset == ny.offset)
    store z { nz with mask := nx.mask ||| ny.mask }
    if nz.offset ≠ 0 then
      let both_present := nx.mask &&& ny.mask
      let at_least_one_present := nx.mask ||| ny.mask
      forM (List.finRange 32) fun i => do
        if mask_has both_present i then
          let child ← set_alloc_offset (nz.offset - 5)
          setChild z i child
          let nx ← load x
          let ny ← load y
          set_union fuel child (nx.children i) (ny.children i)
        else if mask_has at_least_one_present i then
          let child ← set_alloc_offset (nz.offset - 5)
          setChild z i child
          let nx ← load x
          let ny ← load y
          if mask_has nx.mask i then set_copy fuel child (nx.children i)
          else if mask_has ny.mask i then set_copy fuel child (ny.children i)

def set_union_inplace : ℕ → Ptr → Ptr → SetM PUnit
  | 0, _, _ => fail .spins
  | fuel + 1, y, x => do
    let ny ← load y
    let nx ← load x
    check (ny.offset == nx.offset)
    let both_present := ny.mask &&& nx.mask
    store y { ny with mask := ny.mask ||| nx.mask }
    if ny.offset ≠ 0 then
      forM (List.finRange 32) fun i => do
        let ny ← load y
        let nx ← load x
        if mask_has both_present i then
          set_union_inplace fuel (ny.children i) (nx.children i)
        else if mask_has nx.mask i then
          let child ← set_alloc_offset (nx.offset - 5)
          setChild y i child
          set_copy fuel child (nx.children i)

def set_intersection : ℕ → Ptr → Ptr → Ptr → SetM PUnit
  | 0, _, _, _ => fail .spins
  | fuel + 1, z, x, y => do
    let nz ← load z
    let nx ← load x
    let ny ← load y
    check (nz.offset == nx.offset && nx.offset == ny.offset)
    let both_present := ny.mask &&& nx.mask
    store z { nz with mask := both_present }
    if nz.offset ≠ 0 then
      forM (List.finRange 32) fun i => do
        if mask_has both_present i then
          let nx ← load x
          let child ← set_alloc_offset (nx.offset - 5)
          setChild z i child
          let ny ← load y
          set_intersection fuel child (nx.children i) (ny.children i)

def set_intersection_inplace : ℕ → Ptr → Ptr → SetM PUnit
  | 0, _, _ => fail .spins
  | fuel + 1, y, x => do
    let ny ← load y
    let nx ← load x
    check (ny.offset == nx.offset)
    let both_present := ny.mask &&& nx.mask
    let only_y := ny.mask &&& ~~~nx.mask
    let only_x := nx.mask &&& ~~~ny.mask
    store y { ny with mask := ny.mask &&& nx.mask }
    if ny.offset ≠ 0 then
      forM (List.finRange 32) fun i => do
        let ny ← load y
        let nx ← load x
        if mask_has only_y i then
          set_free fuel (ny.children i)
          setChild y i NULL
        else if mask_has only_x i then
          let child ← set_alloc_offset (ny.offset - 5)
          setChild y i child
          set_copy fuel child (nx.children i)
        else if mask_has both_present i then
          set_intersection_inplace fuel (ny.children i) (nx.children i)

/-- The members in the order in which `set_foreach` passes them to its handler. -/
def set_foreach_recurse : ℕ → Ptr → Word → SetM (List Word)
  | 0, _, _ => fail .spins
  | fuel + 1, s, pre => do
    let n ← load s
    let present := (List.finRange 32).filter (mask_has n.mask)
    if 0 < n.offset then
      let parts ← present.mapM fun i =>
        set_foreach_recurse fuel (n.children i) ((pre <<< 5) ||| BitVec.ofNat 32 i.val)
      pure parts.flatten
    else pure (present.map fun i => (pre <<< 5) ||| BitVec.ofNat 32 i.val)

def set_foreach (s : Ptr) : SetM (List Word) := set_foreach_recurse levels s 0

/-- `add_mem`, from the `i`-th byte on. -/
def add_mem (mem : Ptr) (base : Word) : ℕ → ℕ → SetM PUnit
  | 0, _ => pure ()
  | n + 1, i => do
    let _ ← set_insert levels mem (base + BitVec.ofNat 32 i)
    add_mem mem base n (i + 1)

end SetTrie

end EquivChecker
