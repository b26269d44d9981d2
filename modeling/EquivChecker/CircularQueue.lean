import EquivChecker.Fault
import EquivChecker.CircularArray

/-!
# The queue with two locks

One of the programs that are checked. `enqueue_lock` and `dequeue_lock` let one call of
`queue_enqueue` and one of `queue_dequeue` go on at the same time. Calls one after another make a
queue of a hundred elements. Two calls at the same time may do what they do in no order, but only
when the queue has less than two elements.
-/

namespace EquivChecker.CircularQueue

open CircularArray

def QUEUE_SIZE : ℤ := 100

/-- The locks are left out. -/
structure AtomicQueue where
  data : ℕ → Word
  front : ℤ
  rear : ℤ

section Code

def load (data : ℕ → Word) (i : ℤ) : Except Fault Word :=
  if 0 ≤ i ∧ i < QUEUE_SIZE then .ok (data i.toNat) else .error .outOfBounds

def store (data : ℕ → Word) (i : ℤ) (value : Word) : Except Fault (ℕ → Word) :=
  if 0 ≤ i ∧ i < QUEUE_SIZE then .ok (Function.update data i.toNat value) else .error .outOfBounds

def queue_init (q : AtomicQueue) : AtomicQueue := { q with front := -1, rear := -1 }

def queue_enqueue (value : Word) (q : AtomicQueue) : Except Fault AtomicQueue :=
  if (q.rear + 1).tmod QUEUE_SIZE = q.front then .ok q
  else do
    let q := if q.front = -1 then { q with front := 0 } else q
    let q := { q with rear := (q.rear + 1).tmod QUEUE_SIZE }
    let data ← store q.data q.rear value
    .ok { q with data }

/-- With what `*value` holds. -/
def queue_dequeue (value : Word) (q : AtomicQueue) : Except Fault (Word × AtomicQueue) :=
  if q.front = -1 then .ok (value, q)
  else do
    let value ← load q.data q.front
    if q.front = q.rear then .ok (value, { q with front := -1, rear := -1 })
    else .ok (value, { q with front := (q.front + 1).tmod QUEUE_SIZE })

end Code

/-- The places in use go from `f` to `r`. -/
def spanning (data : ℕ → Word) (f r : ℕ) : AtomicQueue := ⟨data, f, r⟩

/-- The queue is empty, or some places are in use. -/
inductive Valid : AtomicQueue → Prop where
  | empty (data : ℕ → Word) : Valid ⟨data, -1, -1⟩
  | spanning (data : ℕ → Word) {f r : ℕ} (hf : f < 100) (hr : r < 100) : Valid (spanning data f r)

/-- The elements, oldest first. -/
def AtomicQueue.contents (q : AtomicQueue) : List Word :=
  if q.front = -1 then [] else window q.data 100 q.front.toNat (extent 100 q.front.toNat q.rear.toNat + 1)

variable {data : ℕ → Word} {f r : ℕ} {q : AtomicQueue} {value x : Word} {els : List Word}

theorem tmod_next {i : ℕ} (hi : i < 100) : ((i : ℤ) + 1).tmod QUEUE_SIZE = (next 100 i : ℕ) := by
  have h := Int.tmod_eq_emod_of_nonneg (a := (i : ℤ) + 1) (b := QUEUE_SIZE) (by omega)
  rw [h]
  unfold next QUEUE_SIZE
  split_ifs <;> omega

theorem load_eq (hf : f < 100) : load data f = .ok (data f) :=
  if_pos ⟨Int.natCast_nonneg f, Int.ofNat_lt.mpr hf⟩

theorem store_eq (hf : f < 100) (value : Word) : store data f value = .ok (Function.update data f value) :=
  if_pos ⟨Int.natCast_nonneg f, Int.ofNat_lt.mpr hf⟩

theorem contents_spanning (data : ℕ → Word) (f r : ℕ) :
    (spanning data f r).contents = window data 100 f (extent 100 f r + 1) :=
  if_neg (by change (f : ℤ) ≠ -1; omega)

theorem contents_eq_stretch (hf : f < 100) (hr : r < 100) (hne : next 100 r ≠ f) :
    (spanning data f r).contents = stretch data 100 f (next 100 r) := by
  rw [contents_spanning, stretch, extent_next_right hf hr hne]

theorem full_iff (data : ℕ → Word) (hf : f < 100) (hr : r < 100) :
    next 100 r = f ↔ (spanning data f r).contents.length = 100 := by
  rw [contents_spanning, length_window, next_eq_iff hf hr]
  omega

theorem enqueue_empty (data : ℕ → Word) (value : Word) :
    queue_enqueue value ⟨data, -1, -1⟩ = .ok (spanning (Function.update data 0 value) 0 0) := rfl

theorem enqueue_full (hr : r < 100) (hfull : next 100 r = f) :
    queue_enqueue value (spanning data f r) = .ok (spanning data f r) := by
  have htest : ((r : ℤ) + 1).tmod QUEUE_SIZE = f := by rw [tmod_next hr, hfull]
  exact if_pos htest

theorem enqueue_spanning (hr : r < 100) (hne : next 100 r ≠ f) : queue_enqueue value (spanning data f r) =
    .ok (spanning (Function.update data (next 100 r) value) f (next 100 r)) := by
  have htest : ¬((r : ℤ) + 1).tmod QUEUE_SIZE = f := by
    rw [tmod_next hr]
    exact fun heq => hne (Int.ofNat_inj.mp heq)
  have hfront : ¬(f : ℤ) = -1 := by omega
  rw [queue_enqueue, spanning]
  dsimp only
  rw [if_neg htest, if_neg hfront]
  dsimp only
  rw [tmod_next hr, store_eq (next_lt hr)]
  rfl

theorem dequeue_empty (data : ℕ → Word) (value : Word) :
    queue_dequeue value ⟨data, -1, -1⟩ = .ok (value, ⟨data, -1, -1⟩) := rfl

theorem dequeue_last (hf : f < 100) :
    queue_dequeue value (spanning data f f) = .ok (data f, ⟨data, -1, -1⟩) := by
  have hfront : ¬(f : ℤ) = -1 := by omega
  rw [queue_dequeue, spanning]
  dsimp only
  rw [if_neg hfront, load_eq hf]
  exact if_pos rfl

theorem dequeue_spanning (hf : f < 100) (hne : f ≠ r) :
    queue_dequeue value (spanning data f r) = .ok (data f, spanning data (next 100 f) r) := by
  have hfront : ¬(f : ℤ) = -1 := by omega
  have htest : ¬(f : ℤ) = r := fun heq => hne (Int.ofNat_inj.mp heq)
  rw [queue_dequeue, spanning]
  dsimp only
  rw [if_neg hfront, load_eq hf, tmod_next hf]
  exact if_neg htest

/-- A call; what `*value` holds before a `queue_dequeue` is its argument. -/
inductive Op where
  | enqueue (value : Word)
  | dequeue (value : Word)

/-- The result of a `queue_dequeue` is what `*value` holds then. -/
def Op.exec : Op → AtomicQueue → Except Fault (Option Word × AtomicQueue)
  | .enqueue value, q => do
    let q ← queue_enqueue value q
    .ok (none, q)
  | .dequeue value, q => do
    let (value, q) ← queue_dequeue value q
    .ok (some value, q)

def execAll : List Op → AtomicQueue → Except Fault (List (Option Word))
  | [], _ => .ok []
  | op :: ops, q => do
    let (r, q) ← op.exec q
    .ok (r :: (← execAll ops q))

/-- A queue that drops what does not fit in. -/
def Op.next : Op → List Word → Option Word × List Word
  | .enqueue value, els => (none, if els.length < 100 then els ++ [value] else els)
  | .dequeue value, els => (some (els.headD value), els.tail)

def nextAll : List Op → List Word → List (Option Word)
  | [], _ => []
  | op :: ops, els => (op.next els).1 :: nextAll ops (op.next els).2

theorem enqueue_spec (h : Valid q) (value : Word) : ∃ q', queue_enqueue value q = .ok q' ∧ Valid q' ∧
    q'.contents = if q.contents.length < 100 then q.contents ++ [value] else q.contents := by
  cases h with
  | empty data => exact ⟨_, enqueue_empty data value, .spanning _ (by decide) (by decide), rfl⟩
  | @spanning data f r hf hr =>
    by_cases hfull : next 100 r = f
    · have hlength := (full_iff data hf hr).mp hfull
      refine ⟨_, enqueue_full hr hfull, .spanning data hf hr, ?_⟩
      rw [if_neg (by omega)]
    · have hnext := next_lt hr
      have hlength : (spanning data f r).contents.length < 100 := by
        have hle := extent_lt hf hr
        have hne := mt (full_iff data hf hr).mpr hfull
        rw [contents_spanning, length_window] at hne ⊢
        omega
      refine ⟨_, enqueue_spanning hr hfull, .spanning _ hf hnext, ?_⟩
      rw [if_pos hlength, contents_eq_stretch hf hr hfull, contents_spanning, window_last,
        iterate_next_extent hf hnext, Function.update_self]
      change stretch _ 100 f (next 100 r) ++ [value] = _
      rw [stretch_update hf hnext]

theorem dequeue_spec (h : Valid q) (value : Word) : ∃ q',
    queue_dequeue value q = .ok (q.contents.headD value, q') ∧ Valid q' ∧ q'.contents = q.contents.tail := by
  cases h with
  | empty data => exact ⟨_, dequeue_empty data value, .empty data, rfl⟩
  | @spanning data f r hf hr =>
    rw [contents_spanning]
    by_cases hlast : f = r
    · subst hlast
      rw [extent_self]
      exact ⟨_, dequeue_last hf, .empty data, rfl⟩
    · refine ⟨_, dequeue_spanning hf hlast, .spanning data (next_lt hf) hr, ?_⟩
      rw [contents_spanning, extent_next_left hf hr hlast]
      rfl

theorem exec_spec (h : Valid q) (op : Op) : ∃ q', op.exec q = .ok ((op.next q.contents).1, q') ∧ Valid q' ∧
    q'.contents = (op.next q.contents).2 := by
  cases op with
  | enqueue value =>
    obtain ⟨q', hrun, hvalid, hcontents⟩ := enqueue_spec h value
    rw [Op.exec, hrun]
    exact ⟨q', rfl, hvalid, hcontents⟩
  | dequeue value =>
    obtain ⟨q', hrun, hvalid, hcontents⟩ := dequeue_spec h value
    rw [Op.exec, hrun]
    exact ⟨q', rfl, hvalid, hcontents⟩

theorem execAll_spec (h : Valid q) (ops : List Op) : execAll ops q = .ok (nextAll ops q.contents) := by
  induction ops generalizing q with
  | nil => rfl
  | cons op ops ih =>
    obtain ⟨q', hrun, hvalid, hcontents⟩ := exec_spec h op
    rw [execAll, hrun, nextAll, ← hcontents]
    change (execAll ops q' >>= _) = _
    rw [ih hvalid]
    rfl

/-- Calls that are not switched away from are those of a queue of a hundred elements. -/
theorem circular_queue_is_queue (q : AtomicQueue) (ops : List Op) :
    execAll ops (queue_init q) = .ok (nextAll ops []) :=
  execAll_spec (.empty q.data) ops

end EquivChecker.CircularQueue
