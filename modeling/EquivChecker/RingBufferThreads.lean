import EquivChecker.RingBuffer

/-!
# The ring buffer between two threads

One thread puts elements in and another takes them out, and the two may be switched between any
two accesses of the buffer. Elements arrive in order, each of them once.
-/

namespace EquivChecker.RingBuffer

open CircularArray

/-- Where the producer is in a call, with its local variables. -/
inductive Producer (α : Type) where
  | idle
  | put (el : α)
  | put_tail (el : α) (head : RingBufCtr)
  | put_index (el : α) (head : RingBufCtr)
  | put_buf (el : α) (head i : RingBufCtr)
  | put_head (el : α) (head : RingBufCtr)
  | put_done (done : Bool)
  | free
  | free_tail (head : RingBufCtr)
  | free_done (n : RingBufCtr)

/-- Where the consumer is in a call; `all` is for `RingBuf_process_all`. -/
inductive Consumer (α : Type) where
  | idle
  | get (all : Bool)
  | get_head (all : Bool) (tail : RingBufCtr)
  | get_buf (all : Bool) (tail : RingBufCtr)
  | get_tail (all : Bool) (tail : RingBufCtr) (el : α)
  | get_done (el : Option α)
  | free
  | free_tail (head : RingBufCtr)
  | free_done (n : RingBufCtr)

/-- The buffer and both threads, with the elements whose `RingBuf_put` has taken effect and the
elements that the consumer was given. -/
structure System (α : Type) where
  me : RingBuf α
  producer : Producer α
  consumer : Consumer α
  sent : List α
  received : List α

section Code
variable {α : Type}

/-- The next access of the producer. -/
def System.produce (s : System α) : Except Fault (System α) :=
  match s.producer with
  | .put el => .ok { s with producer := .put_tail el (s.me.step s.me.head) }
  | .put_tail el head =>
    .ok { s with producer := if head ≠ s.me.tail then .put_index el head else .put_done false }
  | .put_index el head => .ok { s with producer := .put_buf el head s.me.head }
  | .put_buf el head i => do
    let buf ← s.me.buf.store i el
    .ok { s with me := { s.me with buf }, producer := .put_head el head }
  | .put_head el head =>
    .ok { s with me := { s.me with head }, producer := .put_done true, sent := s.sent ++ [el] }
  | .free => .ok { s with producer := .free_tail s.me.head }
  | .free_tail head => .ok { s with producer := .free_done (RingBuf_num_free { s.me with head }) }
  | .idle | .put_done _ | .free_done _ => .ok s

/-- The next access of the consumer. -/
def System.consume (s : System α) : Except Fault (System α) :=
  match s.consumer with
  | .get all => .ok { s with consumer := .get_head all s.me.tail }
  | .get_head all tail =>
    .ok { s with consumer := if s.me.head ≠ tail then .get_buf all tail else .get_done none }
  | .get_buf all tail => do
    let el ← s.me.buf.load tail
    .ok { s with consumer := .get_tail all tail el, received := s.received ++ [el] }
  | .get_tail all tail el =>
    let tail := s.me.step tail
    .ok { s with
      me := { s.me with tail }, consumer := if all then .get_head all tail else .get_done (some el) }
  | .free => .ok { s with consumer := .free_tail s.me.head }
  | .free_tail head => .ok { s with consumer := .free_done (RingBuf_num_free { s.me with head }) }
  | .idle | .get_done _ | .free_done _ => .ok s

def Producer.resting : Producer α → Bool
  | .idle | .put_done _ | .free_done _ => true
  | _ => false

def Consumer.resting : Consumer α → Bool
  | .idle | .get_done _ | .free_done _ => true
  | _ => false

end Code

/-- A thread calls a function, if it is not in one, or makes its next access. -/
inductive Event (α : Type) where
  | put (el : α)
  | producer_free
  | get (all : Bool)
  | consumer_free
  | produce
  | consume

def Event.apply {α : Type} (s : System α) : Event α → Except Fault (System α)
  | .put el => .ok (if s.producer.resting then { s with producer := .put el } else s)
  | .producer_free => .ok (if s.producer.resting then { s with producer := .free } else s)
  | .get all => .ok (if s.consumer.resting then { s with consumer := .get all } else s)
  | .consumer_free => .ok (if s.consumer.resting then { s with consumer := .free } else s)
  | .produce => s.produce
  | .consume => s.consume

def System.run {α : Type} (s : System α) (events : List (Event α)) : Except Fault (System α) :=
  events.foldlM Event.apply s

variable {α : Type} {me : RingBuf α} {s t : System α} {el : α}

/-- The elements of the buffer that are still to be given to the consumer. -/
def Consumer.waiting (contents : List α) : Consumer α → List α
  | .get_tail _ _ _ => contents.tail
  | _ => contents

/-- What the locals of the producer say about the buffer. -/
def Producer.Inv (me : RingBuf α) : Producer α → Prop
  | .put_tail _ head => head = me.step me.head
  | .put_index _ head => head = me.step me.head ∧ head ≠ me.tail
  | .put_buf _ head i => head = me.step me.head ∧ head ≠ me.tail ∧ i = me.head
  | .put_head el head => head = me.step me.head ∧ head ≠ me.tail ∧ me.buf.el me.head.toNat = el
  | .free_tail head => head = me.head
  | .free_done n => n.toNat + me.contents.length ≤ me.capacity
  | .idle | .put _ | .put_done _ | .free => True

/-- What the locals of the consumer say about the buffer. -/
def Consumer.Inv (me : RingBuf α) : Consumer α → Prop
  | .get_head _ tail => tail = me.tail
  | .get_buf _ tail => tail = me.tail ∧ me.head ≠ me.tail
  | .get_tail _ tail el => tail = me.tail ∧ me.head ≠ me.tail ∧ me.buf.el me.tail.toNat = el
  | .free_tail head => head.toNat < me.end_.toNat ∧
      extent me.end_.toNat me.tail.toNat head.toNat ≤ me.contents.length
  | .free_done n => me.capacity ≤ n.toNat + me.contents.length
  | .idle | .get _ | .get_done _ | .free => True

structure Inv (end_ : RingBufCtr) (s : System α) : Prop where
  end_eq : s.me.end_ = end_
  valid : s.me.Valid
  order : s.sent = s.received ++ s.consumer.waiting s.me.contents
  producer : s.producer.Inv s.me
  consumer : s.consumer.Inv s.me

/-- The place behind the last element is free to be written. -/
theorem contents_store (h : me.Valid) (el : α) :
    RingBuf.contents { me with buf := { me.buf with el := Function.update me.buf.el me.head.toNat el } } =
      me.contents :=
  stretch_update h.tail h.head el

/-- An element that was copied in is seen when `head` is updated. -/
theorem contents_head (h : me.Valid) (hne : me.step me.head ≠ me.tail) :
    RingBuf.Valid { me with head := me.step me.head } ∧
      RingBuf.contents { me with head := me.step me.head } = me.contents ++ [me.buf.el me.head.toNat] := by
  have hnext := RingBuf.step_toNat h.head
  have hne' : next me.end_.toNat me.head.toNat ≠ me.tail.toNat := fun heq =>
    hne (BitVec.eq_of_toNat_eq (hnext.trans heq))
  refine ⟨⟨hnext ▸ next_lt h.head, h.tail, h.size⟩, ?_⟩
  change stretch me.buf.el me.end_.toNat me.tail.toNat (me.step me.head).toNat = _
  rw [hnext, stretch_append h.tail h.head hne']
  rfl

theorem step_ne (h : me.Valid) (hne : me.head ≠ me.tail) : me.step me.head ≠ me.step me.tail := by
  intro heq
  have hnext := congrArg BitVec.toNat heq
  rw [RingBuf.step_toNat h.head, RingBuf.step_toNat h.tail] at hnext
  exact hne (BitVec.eq_of_toNat_eq (next_inj h.head h.tail hnext))

/-- The consumer is not affected by an element that is copied in. -/
theorem Consumer.Inv.store {c : Consumer α} (h : c.Inv me) (hvalid : me.Valid) (el : α) :
    c.Inv { me with buf := { me.buf with el := Function.update me.buf.el me.head.toNat el } } := by
  have hcontents := contents_store hvalid el
  cases c with
  | get_head _ tail => exact h
  | get_buf _ tail => exact h
  | get_tail _ tail el' =>
    obtain ⟨htail, hne, hel⟩ := h
    have hplace : me.tail.toNat ≠ me.head.toNat := fun heq => hne (BitVec.eq_of_toNat_eq heq.symm)
    exact ⟨htail, hne, (Function.update_of_ne hplace _ _).trans hel⟩
  | free_tail head => exact ⟨h.1, h.2.trans_eq (congrArg List.length hcontents.symm)⟩
  | free_done n => exact h.trans_eq (congrArg (n.toNat + ·.length) hcontents.symm)
  | idle | get | get_done | free => trivial

/-- Nor by an element more. -/
theorem Consumer.Inv.head {c : Consumer α} (h : c.Inv me) (hvalid : me.Valid)
    (hne : me.step me.head ≠ me.tail) : c.Inv { me with head := me.step me.head } := by
  have hlength : (RingBuf.contents { me with head := me.step me.head }).length = me.contents.length + 1 := by
    rw [(contents_head hvalid hne).2, List.length_append, List.length_singleton]
  cases c with
  | get_head _ tail => exact h
  | get_buf _ tail => exact ⟨h.1, hne⟩
  | get_tail _ tail el => exact ⟨h.1, hne, h.2.2⟩
  | free_tail head =>
    refine ⟨h.1, h.2.trans ?_⟩
    rw [hlength]
    exact Nat.le_succ _
  | free_done n =>
    change me.capacity ≤ n.toNat + (RingBuf.contents { me with head := me.step me.head }).length
    rw [hlength]
    exact Nat.le_trans h (by omega)
  | idle | get | get_done | free => trivial

/-- The producer is not affected by an element less. -/
theorem Producer.Inv.tail {c : Producer α} (h : c.Inv me) (hvalid : me.Valid) (hne : me.head ≠ me.tail) :
    c.Inv { me with tail := me.step me.tail } := by
  have hstep := step_ne hvalid hne
  have hlength : me.contents.length = (RingBuf.contents { me with tail := me.step me.tail }).length + 1 := by
    rw [(hvalid.get hne).2, List.length_cons]
  cases c with
  | put_tail _ head => exact h
  | put_index _ head => exact ⟨h.1, h.1 ▸ hstep⟩
  | put_buf _ head i => exact ⟨h.1, h.1 ▸ hstep, h.2.2⟩
  | put_head el head => exact ⟨h.1, h.1 ▸ hstep, h.2.2⟩
  | free_tail head => exact h
  | free_done n =>
    have hle : n.toNat + me.contents.length ≤ me.capacity := h
    change n.toNat + (RingBuf.contents { me with tail := me.step me.tail }).length ≤ me.capacity
    omega
  | idle | put | put_done | free => trivial

theorem Consumer.Inv.waiting_append {c : Consumer α} (h : c.Inv me) (hvalid : me.Valid) (el : α) :
    c.waiting (me.contents ++ [el]) = c.waiting me.contents ++ [el] := by
  cases c with
  | get_tail all tail el' =>
    have hne : me.contents ≠ [] := fun hnil => h.2.1 (hvalid.contents_eq_nil.mp hnil)
    exact List.tail_append_of_ne_nil hne
  | _ => rfl

/-- A number of free places, from an old `head` or the current one. -/
theorem num_free_head (hvalid : me.Valid) {head : RingBufCtr} (hhead : head.toNat < me.end_.toNat) :
    (RingBuf_num_free { me with head }).toNat =
      me.capacity - extent me.end_.toNat me.tail.toNat head.toNat := by
  have hold : RingBuf.Valid { me with head } := ⟨hhead, hvalid.tail, hvalid.size⟩
  rw [num_free_spec hold, RingBuf.contents, length_stretch]
  rfl

/-- An access of the producer keeps to the storage, and keeps the invariant. -/
theorem produce_inv {end_ : RingBufCtr} (h : Inv end_ s) : ∃ t, s.produce = .ok t ∧ Inv end_ t := by
  obtain ⟨hend, hvalid, horder, hproducer, hconsumer⟩ := h
  rw [System.produce]
  cases hp : s.producer with
  | idle => exact ⟨s, rfl, hend, hvalid, horder, hproducer, hconsumer⟩
  | put el => exact ⟨_, rfl, hend, hvalid, horder, rfl, hconsumer⟩
  | put_tail el head =>
    rw [hp] at hproducer
    refine ⟨_, rfl, hend, hvalid, horder, ?_, hconsumer⟩
    by_cases hne : head = s.me.tail
    · rw [if_neg (not_not.mpr hne)]
      trivial
    · rw [if_pos hne]
      exact ⟨hproducer, hne⟩
  | put_index el head =>
    rw [hp] at hproducer
    exact ⟨_, rfl, hend, hvalid, horder, ⟨hproducer.1, hproducer.2, rfl⟩, hconsumer⟩
  | put_buf el head i =>
    rw [hp] at hproducer
    obtain ⟨hhead, hne, rfl⟩ := hproducer
    have hcontents := contents_store hvalid el
    dsimp only
    rw [hvalid.store hvalid.head el]
    refine ⟨_, rfl, hend, ⟨hvalid.head, hvalid.tail, hvalid.size⟩, ?_,
      ⟨hhead, hne, Function.update_self _ _ _⟩, hconsumer.store hvalid el⟩
    exact horder.trans (congrArg (fun q => s.received ++ s.consumer.waiting q) hcontents.symm)
  | put_head el head =>
    rw [hp] at hproducer
    obtain ⟨rfl, hne, rfl⟩ := hproducer
    obtain ⟨hvalid', hcontents⟩ := contents_head hvalid hne
    refine ⟨_, rfl, hend, hvalid', ?_, trivial, hconsumer.head hvalid hne⟩
    change s.sent ++ [_] =
      s.received ++ s.consumer.waiting (RingBuf.contents { s.me with head := s.me.step s.me.head })
    rw [hcontents, hconsumer.waiting_append hvalid, horder, List.append_assoc]
  | put_done done => exact ⟨s, rfl, hend, hvalid, horder, hproducer, hconsumer⟩
  | free => exact ⟨_, rfl, hend, hvalid, horder, rfl, hconsumer⟩
  | free_tail head =>
    rw [hp] at hproducer
    refine ⟨_, rfl, hend, hvalid, horder, ?_, hconsumer⟩
    have hhead : head = s.me.head := hproducer
    have hfree := num_free_head hvalid hvalid.head
    have hle := hvalid.length_le
    have hlength := length_stretch s.me.buf.el s.me.end_.toNat s.me.tail.toNat s.me.head.toNat
    change (RingBuf_num_free { s.me with head }).toNat + s.me.contents.length ≤ s.me.capacity
    rw [RingBuf.contents] at hle ⊢
    rw [hhead, hfree]
    omega
  | free_done n => exact ⟨s, rfl, hend, hvalid, horder, hproducer, hconsumer⟩

/-- An access of the consumer keeps to the storage, and keeps the invariant. -/
theorem consume_inv {end_ : RingBufCtr} (h : Inv end_ s) : ∃ t, s.consume = .ok t ∧ Inv end_ t := by
  obtain ⟨hend, hvalid, horder, hproducer, hconsumer⟩ := h
  rw [System.consume]
  cases hc : s.consumer with
  | idle => exact ⟨s, rfl, hend, hvalid, horder, hproducer, hconsumer⟩
  | get all =>
    rw [hc] at horder
    exact ⟨_, rfl, hend, hvalid, horder, hproducer, rfl⟩
  | get_head all tail =>
    rw [hc] at hconsumer horder
    have htail : tail = s.me.tail := hconsumer
    refine ⟨_, rfl, hend, hvalid, ?_, hproducer, ?_⟩
    · refine horder.trans ?_
      dsimp only
      split_ifs <;> rfl
    · by_cases hne : s.me.head = tail
      · rw [if_neg (not_not.mpr hne)]
        trivial
      · rw [if_pos hne]
        exact ⟨htail, htail ▸ hne⟩
  | get_buf all tail =>
    rw [hc] at hconsumer horder
    obtain ⟨rfl, hne⟩ := hconsumer
    obtain ⟨-, hcontents⟩ := hvalid.get hne
    dsimp only
    rw [hvalid.load hvalid.tail]
    refine ⟨_, rfl, hend, hvalid, ?_, hproducer, ⟨rfl, hne, rfl⟩⟩
    have hsent : s.sent = s.received ++ s.me.contents := horder
    change s.sent = (s.received ++ [_]) ++ s.me.contents.tail
    rw [hsent, hcontents, List.tail_cons, List.append_assoc, List.singleton_append]
  | get_tail all tail el =>
    rw [hc] at hconsumer horder
    obtain ⟨rfl, hne, rfl⟩ := hconsumer
    obtain ⟨hvalid', hcontents⟩ := hvalid.get hne
    refine ⟨_, rfl, hend, hvalid', ?_, hproducer.tail hvalid hne, ?_⟩
    · have hrest : s.sent = s.received ++ RingBuf.contents { s.me with tail := s.me.step s.me.tail } := by
        rw [horder, Consumer.waiting, hcontents, List.tail_cons]
      cases all <;> exact hrest
    · cases all with
      | true => rfl
      | false => trivial
  | get_done el => exact ⟨s, rfl, hend, hvalid, horder, hproducer, hconsumer⟩
  | free =>
    rw [hc] at horder
    refine ⟨_, rfl, hend, hvalid, horder, hproducer, hvalid.head, ?_⟩
    exact (length_stretch _ _ _ _).ge
  | free_tail head =>
    rw [hc] at hconsumer horder
    refine ⟨_, rfl, hend, hvalid, horder, hproducer, ?_⟩
    have hfree := num_free_head hvalid hconsumer.1
    have hle := hconsumer.2
    change s.me.capacity ≤ (RingBuf_num_free { s.me with head }).toNat + s.me.contents.length
    rw [hfree]
    omega
  | free_done n => exact ⟨s, rfl, hend, hvalid, horder, hproducer, hconsumer⟩

theorem Consumer.waiting_resting {c : Consumer α} (h : c.resting = true) (q : List α) : c.waiting q = q := by
  cases c <;> first | rfl | cases h

theorem apply_inv {end_ : RingBufCtr} (h : Inv end_ s) (e : Event α) : ∃ t, e.apply s = .ok t ∧ Inv end_ t := by
  have horder : s.consumer.resting = true → s.sent = s.received ++ s.me.contents := fun hrest =>
    h.order.trans (congrArg (s.received ++ ·) (s.consumer.waiting_resting hrest _))
  cases e with
  | put el =>
    refine ⟨_, rfl, ?_⟩
    split_ifs
    · exact ⟨h.end_eq, h.valid, h.order, trivial, h.consumer⟩
    · exact h
  | producer_free =>
    refine ⟨_, rfl, ?_⟩
    split_ifs
    · exact ⟨h.end_eq, h.valid, h.order, trivial, h.consumer⟩
    · exact h
  | get all =>
    refine ⟨_, rfl, ?_⟩
    split_ifs with hrest
    · exact ⟨h.end_eq, h.valid, horder hrest, h.producer, trivial⟩
    · exact h
  | consumer_free =>
    refine ⟨_, rfl, ?_⟩
    split_ifs with hrest
    · exact ⟨h.end_eq, h.valid, horder hrest, h.producer, trivial⟩
    · exact h
  | produce => exact produce_inv h
  | consume => exact consume_inv h

theorem run_inv {end_ : RingBufCtr} (h : Inv end_ s) (events : List (Event α)) :
    ∃ t, s.run events = .ok t ∧ Inv end_ t := by
  induction events generalizing s with
  | nil => exact ⟨s, rfl, h⟩
  | cons e events ih =>
    obtain ⟨s', hs', h'⟩ := apply_inv h e
    obtain ⟨t, ht, hinv⟩ := ih h'
    refine ⟨t, ?_, hinv⟩
    rw [System.run, List.foldlM_cons, hs']
    exact ht

/-- A put that is not interrupted is `RingBuf_put`. -/
theorem put_uninterrupted (hrest : s.producer.resting = true) (el : α) :
    s.run [.put el, .produce, .produce, .produce, .produce, .produce] = (do
      let (done, me) ← RingBuf_put s.me el
      .ok { s with me, producer := .put_done done, sent := if done then s.sent ++ [el] else s.sent }) := by
  rw [System.run, List.foldlM_cons, Event.apply, if_pos hrest, RingBuf_put]
  by_cases hne : s.me.step s.me.head = s.me.tail
  · simp [Event.apply, System.produce, hne, bind, Except.bind, pure, Except.pure]
  · cases hstore : s.me.buf.store s.me.head el with
    | error e => simp [Event.apply, System.produce, hne, hstore, bind, Except.bind]
    | ok buf => simp [Event.apply, System.produce, hne, hstore, bind, Except.bind, pure, Except.pure]

/-- A get that is not interrupted is `RingBuf_get`. -/
theorem get_uninterrupted (hrest : s.consumer.resting = true) :
    s.run [.get false, .consume, .consume, .consume, .consume] = (do
      let (el, me) ← RingBuf_get s.me
      .ok { s with me, consumer := .get_done el, received := s.received ++ el.toList }) := by
  rw [System.run, List.foldlM_cons, Event.apply, if_pos hrest, RingBuf_get]
  by_cases hne : s.me.head = s.me.tail
  · simp [Event.apply, System.consume, hne, bind, Except.bind, pure, Except.pure]
  · cases hload : s.me.buf.load s.me.tail with
    | error e => simp [Event.apply, System.consume, hne, hload, bind, Except.bind]
    | ok el => simp [Event.apply, System.consume, hne, hload, bind, Except.bind, pure, Except.pure]

def start (sto : Sto α) (sto_len : RingBufCtr) : System α := ⟨RingBuf_ctor sto sto_len, .idle, .idle, [], []⟩

/-- What holds whenever the threads are switched, for a buffer with room for `n` elements. Calls
are refused because of what is in the buffer at the access that decides; of the numbers of free
places, the producer gets one that it may use and the consumer one that is not too small. -/
structure Fifo (n : ℕ) (s : System α) : Prop where
  order : s.sent = s.received ++ s.consumer.waiting s.me.contents
  bound : s.me.contents.length ≤ n
  put_decides : ∀ el head, s.producer = .put_tail el head → (head = s.me.tail ↔ s.me.contents.length = n)
  get_decides : ∀ all tail, s.consumer = .get_head all tail → (s.me.head = tail ↔ s.me.contents = [])
  producer_free : ∀ k, s.producer = .free_done k → k.toNat + s.me.contents.length ≤ n
  consumer_free : ∀ k, s.consumer = .free_done k → n ≤ k.toNat + s.me.contents.length

/-- Whatever the two threads call, and wherever they are switched: no access leaves the storage,
and the consumer is given the elements in the order in which they were put in, each of them once. -/
theorem ring_buffer_fifo (sto : Sto α) (sto_len : RingBufCtr) (hpositive : 0 < sto_len.toNat)
    (hsize : sto_len.toNat ≤ sto.size) (events : List (Event α)) :
    ∃ s, (start sto sto_len).run events = .ok s ∧ Fifo (sto_len.toNat - 1) s := by
  have hvalid : (RingBuf_ctor sto sto_len).Valid := ⟨hpositive, hpositive, hsize⟩
  have hstart : Inv sto_len (start sto sto_len) :=
    ⟨rfl, hvalid, (hvalid.contents_eq_nil.mpr rfl).symm, trivial, trivial⟩
  obtain ⟨s, hrun, hend, hvalid, horder, hproducer, hconsumer⟩ := run_inv hstart events
  have hcapacity : s.me.capacity = sto_len.toNat - 1 := by rw [RingBuf.capacity, hend]
  refine ⟨s, hrun, horder, hcapacity ▸ hvalid.length_le, ?_, ?_, ?_, ?_⟩
  · intro el head hp
    rw [hp] at hproducer
    rw [show head = s.me.step s.me.head from hproducer, hvalid.full_iff, hcapacity]
  · intro all tail hc
    rw [hc] at hconsumer
    rw [show tail = s.me.tail from hconsumer, hvalid.contents_eq_nil]
  · intro k hp
    rw [hp] at hproducer
    exact hcapacity ▸ hproducer
  · intro k hc
    rw [hc] at hconsumer
    exact hcapacity ▸ hconsumer

/-- The producer is switched away from between the two stores of its second call. -/
theorem ring_buffer_fifo_switched : ∃ s, (start ⟨3, fun _ => 0⟩ 3).run
    [.put 5, .produce, .produce, .produce, .produce, .produce, .put 6, .produce, .produce, .produce, .produce,
      .get true, .consume, .consume, .consume, .consume, .consume] = .ok s ∧ Fifo 2 s ∧ s.received = [5] := by
  obtain ⟨s, hrun, hfifo⟩ := ring_buffer_fifo (⟨3, fun _ => 0⟩ : Sto ℕ) 3 (by decide) (by decide)
    [.put 5, .produce, .produce, .produce, .produce, .produce, .put 6, .produce, .produce, .produce, .produce,
      .get true, .consume, .consume, .consume, .consume, .consume]
  refine ⟨s, hrun, hfifo, ?_⟩
  cases hrun
  rfl

end EquivChecker.RingBuffer
