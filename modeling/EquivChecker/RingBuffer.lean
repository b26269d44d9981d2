import EquivChecker.Fault
import EquivChecker.CircularArray

/-!
# The lock-free ring buffer

One of the programs that are checked. Used by one thread, the buffer is a queue that holds one
element less than it has places, and nothing outside of its storage is accessed.
-/

namespace EquivChecker.RingBuffer

open CircularArray

abbrev RingBufCtr := BitVec 16

/-- The storage of a buffer: so many elements. -/
structure Sto (α : Type) where
  size : ℕ
  el : ℕ → α

structure RingBuf (α : Type) where
  buf : Sto α
  end_ : RingBufCtr
  head : RingBufCtr
  tail : RingBufCtr

section Code
variable {α : Type}

def Sto.load (sto : Sto α) (i : RingBufCtr) : Except Fault α :=
  if i.toNat < sto.size then .ok (sto.el i.toNat) else .error .outOfBounds

def Sto.store (sto : Sto α) (i : RingBufCtr) (el : α) : Except Fault (Sto α) :=
  if i.toNat < sto.size then .ok { sto with el := Function.update sto.el i.toNat el } else .error .outOfBounds

def RingBuf_ctor (sto : Sto α) (sto_len : RingBufCtr) : RingBuf α := ⟨sto, sto_len, 0, 0⟩

/-- How `head` and `tail` are advanced. -/
def RingBuf.step (me : RingBuf α) (i : RingBufCtr) : RingBufCtr := if i + 1 = me.end_ then 0 else i + 1

def RingBuf_put (me : RingBuf α) (el : α) : Except Fault (Bool × RingBuf α) :=
  let head := me.step me.head
  if head ≠ me.tail then do
    let buf ← me.buf.store me.head el
    .ok (true, { me with buf, head })
  else .ok (false, me)

/-- What is stored to `*pel`, if something is. -/
def RingBuf_get (me : RingBuf α) : Except Fault (Option α × RingBuf α) :=
  let tail := me.tail
  if me.head ≠ tail then do
    let el ← me.buf.load tail
    .ok (some el, { me with tail := me.step tail })
  else .ok (none, me)

def RingBuf_num_free (me : RingBuf α) : RingBufCtr :=
  let head := me.head
  let tail := me.tail
  if head = tail then me.end_ - 1
  else if head < tail then tail - head - 1
  else me.end_ + tail - head - 1

/-- The loop of `RingBuf_process_all`, with the elements that the handler gets. -/
def process_all_loop : ℕ → RingBufCtr → RingBuf α → Except Fault (List α × RingBuf α)
  | 0, _, _ => .error .spins
  | fuel + 1, tail, me =>
    if me.head ≠ tail then do
      let el ← me.buf.load tail
      let tail := me.step tail
      let (els, me) ← process_all_loop fuel tail { me with tail }
      .ok (el :: els, me)
    else .ok ([], me)

def RingBuf_process_all (fuel : ℕ) (me : RingBuf α) : Except Fault (List α × RingBuf α) :=
  process_all_loop fuel me.tail me

end Code

variable {α : Type} {me : RingBuf α} {el : α} {els : List α} {i : RingBufCtr}

/-- The indices are places of the buffer, and these are in its storage. -/
structure RingBuf.Valid (me : RingBuf α) : Prop where
  head : me.head.toNat < me.end_.toNat
  tail : me.tail.toNat < me.end_.toNat
  size : me.end_.toNat ≤ me.buf.size

/-- The elements in the buffer, oldest first. -/
def RingBuf.contents (me : RingBuf α) : List α :=
  stretch me.buf.el me.end_.toNat me.tail.toNat me.head.toNat

/-- As many elements fit in. -/
def RingBuf.capacity (me : RingBuf α) : ℕ := me.end_.toNat - 1

theorem RingBuf.step_toNat (hi : i.toNat < me.end_.toNat) :
    (me.step i).toNat = next me.end_.toNat i.toNat := by
  have hend := me.end_.isLt
  have hsum : (i + 1).toNat = i.toNat + 1 := by
    rw [BitVec.toNat_add]
    exact Nat.mod_eq_of_lt (lt_of_le_of_lt (Nat.succ_le_of_lt hi) hend)
  unfold step next
  by_cases h : i + 1 = me.end_
  · rw [if_pos h, if_pos (hsum ▸ congrArg BitVec.toNat h)]
    rfl
  · rw [if_neg h, if_neg fun heq => h (BitVec.eq_of_toNat_eq (hsum.trans heq)), hsum]

theorem RingBuf.Valid.contents_eq_nil (h : me.Valid) : me.contents = [] ↔ me.head = me.tail := by
  rw [contents, stretch_eq_nil h.tail]
  exact ⟨fun heq => BitVec.eq_of_toNat_eq heq.symm, fun heq => congrArg BitVec.toNat heq.symm⟩

theorem RingBuf.Valid.full_iff (h : me.Valid) :
    me.step me.head = me.tail ↔ me.contents.length = me.capacity := by
  rw [contents, length_stretch, capacity, ← next_eq_iff h.tail h.head, ← step_toNat h.head]
  exact ⟨fun heq => congrArg BitVec.toNat heq, fun heq => BitVec.eq_of_toNat_eq heq⟩

theorem RingBuf.Valid.length_le (h : me.Valid) : me.contents.length ≤ me.capacity := by
  have := extent_lt h.tail h.head
  rw [contents, length_stretch, capacity]
  omega

theorem RingBuf.Valid.load (h : me.Valid) (hi : i.toNat < me.end_.toNat) :
    me.buf.load i = .ok (me.buf.el i.toNat) :=
  if_pos (lt_of_lt_of_le hi h.size)

theorem RingBuf.Valid.store (h : me.Valid) (hi : i.toNat < me.end_.toNat) (el : α) :
    me.buf.store i el = .ok { me.buf with el := Function.update me.buf.el i.toNat el } :=
  if_pos (lt_of_lt_of_le hi h.size)

/-- The buffer after an element is put in. -/
theorem RingBuf.Valid.put (h : me.Valid) (hne : me.step me.head ≠ me.tail) (el : α) :
    RingBuf.Valid { me with
      buf := { me.buf with el := Function.update me.buf.el me.head.toNat el }, head := me.step me.head } ∧
    RingBuf.contents { me with
      buf := { me.buf with el := Function.update me.buf.el me.head.toNat el }, head := me.step me.head } =
        me.contents ++ [el] := by
  have hnext := step_toNat h.head
  have hne' : next me.end_.toNat me.head.toNat ≠ me.tail.toNat := fun heq =>
    hne (BitVec.eq_of_toNat_eq (hnext.trans heq))
  refine ⟨⟨hnext ▸ next_lt h.head, h.tail, h.size⟩, ?_⟩
  change stretch (Function.update me.buf.el me.head.toNat el) me.end_.toNat me.tail.toNat
    (me.step me.head).toNat = _
  rw [hnext, stretch_append h.tail h.head hne', stretch_update h.tail h.head, Function.update_self]
  rfl

/-- The buffer after the oldest element is taken out. -/
theorem RingBuf.Valid.get (h : me.Valid) (hne : me.head ≠ me.tail) :
    RingBuf.Valid { me with tail := me.step me.tail } ∧
      me.contents = me.buf.el me.tail.toNat :: RingBuf.contents { me with tail := me.step me.tail } := by
  have hnext := step_toNat h.tail
  have hne' : me.tail.toNat ≠ me.head.toNat := fun heq => hne (BitVec.eq_of_toNat_eq heq.symm)
  refine ⟨⟨h.head, hnext ▸ next_lt h.tail, h.size⟩, ?_⟩
  rw [contents, stretch_cons h.tail h.head hne', ← hnext]
  rfl

theorem put_spec (h : me.Valid) (hfree : me.contents.length < me.capacity) (el : α) :
    ∃ me', RingBuf_put me el = .ok (true, me') ∧ me'.Valid ∧ me'.end_ = me.end_ ∧
      me'.contents = me.contents ++ [el] := by
  have hne : me.step me.head ≠ me.tail := fun heq => absurd (h.full_iff.mp heq) (Nat.ne_of_lt hfree)
  obtain ⟨hvalid, hcontents⟩ := h.put hne el
  refine ⟨_, ?_, hvalid, rfl, hcontents⟩
  rw [RingBuf_put]
  exact (if_pos hne).trans (by rw [h.store h.head]; rfl)

theorem put_full (h : me.Valid) (hfull : me.contents.length = me.capacity) (el : α) :
    RingBuf_put me el = .ok (false, me) :=
  if_neg (not_not.mpr (h.full_iff.mpr hfull))

theorem get_spec (h : me.Valid) (hcontents : me.contents = el :: els) :
    ∃ me', RingBuf_get me = .ok (some el, me') ∧ me'.Valid ∧ me'.end_ = me.end_ ∧ me'.contents = els := by
  have hne : me.head ≠ me.tail := fun heq => by
    rw [h.contents_eq_nil.mpr heq] at hcontents
    cases hcontents
  obtain ⟨hvalid, hcontents'⟩ := h.get hne
  obtain ⟨rfl, rfl⟩ := List.cons.inj (hcontents.symm.trans hcontents')
  refine ⟨_, ?_, hvalid, rfl, rfl⟩
  rw [RingBuf_get]
  exact (if_pos hne).trans (by rw [h.load h.tail]; rfl)

theorem get_empty (h : me.Valid) (hcontents : me.contents = []) : RingBuf_get me = .ok (none, me) :=
  if_neg (not_not.mpr (h.contents_eq_nil.mp hcontents))

theorem num_free_spec (h : me.Valid) : (RingBuf_num_free me).toNat = me.capacity - me.contents.length := by
  have hhead := h.head
  have htail := h.tail
  have hend := me.end_.isLt
  have hone : (1 : RingBufCtr).toNat = 1 := rfl
  rw [RingBuf.contents, length_stretch, RingBuf.capacity, extent, RingBuf_num_free]
  split_ifs with heq hle hlt hle hle
  · rw [heq, BitVec.toNat_sub, hone]
    omega
  · exact absurd (heq ▸ Nat.le_refl _) hle
  · exact absurd hle (Nat.not_le.mpr hlt)
  · rw [BitVec.toNat_sub, BitVec.toNat_sub, hone]
    have hlt' : me.head.toNat < me.tail.toNat := hlt
    omega
  · rw [BitVec.toNat_sub, BitVec.toNat_sub, BitVec.toNat_add, hone]
    have hne : me.tail.toNat ≠ me.head.toNat := fun h => heq (BitVec.eq_of_toNat_eq h.symm)
    omega
  · exact absurd (Nat.lt_of_not_le hle) hlt

/-- All elements are taken out, one after another. -/
theorem process_all_spec {fuel : ℕ} (h : me.Valid) (hfuel : me.contents.length < fuel) :
    ∃ me', RingBuf_process_all fuel me = .ok (me.contents, me') ∧ me'.Valid ∧ me'.end_ = me.end_ ∧
      me'.contents = [] := by
  induction fuel generalizing me with
  | zero => exact absurd hfuel (Nat.not_lt_zero _)
  | succ fuel ih =>
    by_cases hne : me.head = me.tail
    · have hcontents := h.contents_eq_nil.mpr hne
      refine ⟨me, ?_, h, rfl, hcontents⟩
      rw [hcontents]
      exact if_neg (not_not.mpr hne)
    · obtain ⟨hvalid, hcontents⟩ := h.get hne
      rw [hcontents, List.length_cons, Nat.succ_lt_succ_iff] at hfuel
      obtain ⟨me', hrun, hvalid', hend, hempty⟩ := ih hvalid hfuel
      refine ⟨me', ?_, hvalid', hend, hempty⟩
      rw [RingBuf_process_all, process_all_loop, if_pos hne, h.load h.tail, hcontents]
      change (process_all_loop fuel (me.step me.tail) { me with tail := me.step me.tail } >>= _) = _
      rw [show process_all_loop fuel (me.step me.tail) { me with tail := me.step me.tail } = _ from hrun]
      rfl

/-- A call, and what it returns. -/
inductive Op (α : Type) where
  | put (el : α)
  | get
  | num_free
  | process_all

inductive Result (α : Type) where
  | put (done : Bool)
  | get (el : Option α)
  | num_free (n : ℕ)
  | process_all (els : List α)
  deriving DecidableEq

def Op.exec : Op α → RingBuf α → Except Fault (Result α × RingBuf α)
  | .put el, me => do
    let (done, me) ← RingBuf_put me el
    .ok (.put done, me)
  | .get, me => do
    let (el, me) ← RingBuf_get me
    .ok (.get el, me)
  | .num_free, me => .ok (.num_free (RingBuf_num_free me).toNat, me)
  | .process_all, me => do
    let (els, me) ← RingBuf_process_all me.end_.toNat me
    .ok (.process_all els, me)

def execAll : List (Op α) → RingBuf α → Except Fault (List (Result α))
  | [], _ => .ok []
  | op :: ops, me => do
    let (r, me) ← op.exec me
    .ok (r :: (← execAll ops me))

/-- A queue that holds at most `n` elements. -/
def Op.next (n : ℕ) : Op α → List α → Result α × List α
  | .put el, q => if q.length < n then (.put true, q ++ [el]) else (.put false, q)
  | .get, q => (.get q.head?, q.tail)
  | .num_free, q => (.num_free (n - q.length), q)
  | .process_all, q => (.process_all q, [])

def nextAll (n : ℕ) : List (Op α) → List α → List (Result α)
  | [], _ => []
  | op :: ops, q => (op.next n q).1 :: nextAll n ops (op.next n q).2

theorem exec_spec (h : me.Valid) (op : Op α) : ∃ me', op.exec me = .ok ((op.next me.capacity me.contents).1, me') ∧
    me'.Valid ∧ me'.end_ = me.end_ ∧ me'.contents = (op.next me.capacity me.contents).2 := by
  cases op with
  | put el =>
    rw [Op.exec, Op.next]
    by_cases hfree : me.contents.length < me.capacity
    · obtain ⟨me', hrun, hvalid, hend, hcontents⟩ := put_spec h hfree el
      rw [hrun, if_pos hfree]
      exact ⟨me', rfl, hvalid, hend, hcontents⟩
    · have hfull : me.contents.length = me.capacity := Nat.le_antisymm h.length_le (Nat.le_of_not_lt hfree)
      rw [put_full h hfull, if_neg hfree]
      exact ⟨me, rfl, h, rfl, rfl⟩
  | get =>
    rw [Op.exec, Op.next]
    cases hcontents : me.contents with
    | nil =>
      rw [get_empty h hcontents]
      exact ⟨me, rfl, h, rfl, hcontents⟩
    | cons el els =>
      obtain ⟨me', hrun, hvalid, hend, hrest⟩ := get_spec h hcontents
      rw [hrun]
      exact ⟨me', rfl, hvalid, hend, hrest⟩
  | num_free =>
    refine ⟨me, ?_, h, rfl, rfl⟩
    rw [Op.exec, Op.next, num_free_spec h]
  | process_all =>
    have hfuel : me.contents.length < me.end_.toNat := by
      rw [RingBuf.contents, length_stretch]
      exact extent_lt h.tail h.head
    obtain ⟨me', hrun, hvalid, hend, hempty⟩ := process_all_spec h hfuel
    rw [Op.exec, Op.next, hrun]
    exact ⟨me', rfl, hvalid, hend, hempty⟩

theorem execAll_spec (h : me.Valid) (ops : List (Op α)) :
    execAll ops me = .ok (nextAll me.capacity ops me.contents) := by
  induction ops generalizing me with
  | nil => rfl
  | cons op ops ih =>
    obtain ⟨me', hrun, hvalid, hend, hcontents⟩ := exec_spec h op
    have hrest := ih hvalid
    rw [RingBuf.capacity, hend, hcontents] at hrest
    rw [execAll, hrun, nextAll]
    change (execAll ops me' >>= _) = _
    rw [hrest]
    rfl

/-- Any calls of one thread return what a queue of `sto_len - 1` elements would return, and no call
leaves the storage or goes on for ever. -/
theorem ring_buffer_is_queue (sto : Sto α) (sto_len : RingBufCtr) (hpositive : 0 < sto_len.toNat)
    (hsize : sto_len.toNat ≤ sto.size) (ops : List (Op α)) :
    execAll ops (RingBuf_ctor sto sto_len) = .ok (nextAll (sto_len.toNat - 1) ops []) := by
  have hvalid : (RingBuf_ctor sto sto_len).Valid := ⟨hpositive, hpositive, hsize⟩
  have hempty : (RingBuf_ctor sto sto_len).contents = [] := hvalid.contents_eq_nil.mpr rfl
  rw [execAll_spec hvalid ops, hempty]
  rfl

/-- Three places hold two elements. -/
theorem ring_buffer_is_queue_three :
    execAll [.put 5, .put 6, .put 7, .get, .put 8, .num_free, .process_all, .get]
      (RingBuf_ctor ⟨3, fun _ => 0⟩ 3) =
      .ok [.put true, .put true, .put false, .get (some 5), .put true, .num_free 0, .process_all [6, 8],
        .get none] :=
  ring_buffer_is_queue ⟨3, fun _ => 0⟩ 3 (by decide) (by decide) _

end EquivChecker.RingBuffer
