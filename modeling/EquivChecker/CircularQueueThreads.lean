import EquivChecker.CircularQueue

/-!
# Two calls at the same time

A thread in `queue_enqueue` holds one lock and a thread in `queue_dequeue` the other, so that
nothing keeps the two from being switched between any two accesses of the queue. What they do then
is what they do in one of the two orders, exactly if the queue has at least two elements.
-/

namespace EquivChecker.CircularQueue

open CircularArray

/-- Where a thread is in `queue_enqueue`, with its local variables. -/
inductive Enqueue where
  | full
  | full_front (rear : ℤ)
  | first
  | set_front
  | advance
  | set_rear (rear : ℤ)
  | index
  | set_data (i : ℤ)
  | done

/-- Where a thread is in `queue_dequeue`. -/
inductive Dequeue where
  | empty
  | index
  | data (i : ℤ)
  | last
  | last_rear (front : ℤ)
  | reset_front
  | reset_rear
  | advance
  | set_front (front : ℤ)
  | done

/-- The queue, `*value`, and both threads. -/
structure System where
  q : AtomicQueue
  value : Word
  enqueue : Enqueue
  dequeue : Dequeue

section Code

/-- The next access of the thread that puts `x` in. -/
def System.producer (x : Word) (s : System) : Except Fault System :=
  match s.enqueue with
  | .full => .ok { s with enqueue := .full_front s.q.rear }
  | .full_front rear =>
    .ok { s with enqueue := if (rear + 1).tmod QUEUE_SIZE = s.q.front then .done else .first }
  | .first => .ok { s with enqueue := if s.q.front = -1 then .set_front else .advance }
  | .set_front => .ok { s with q := { s.q with front := 0 }, enqueue := .advance }
  | .advance => .ok { s with enqueue := .set_rear ((s.q.rear + 1).tmod QUEUE_SIZE) }
  | .set_rear rear => .ok { s with q := { s.q with rear }, enqueue := .index }
  | .index => .ok { s with enqueue := .set_data s.q.rear }
  | .set_data i => do
    let data ← store s.q.data i x
    .ok { s with q := { s.q with data }, enqueue := .done }
  | .done => .ok s

/-- The next access of the thread that takes an element out. -/
def System.consumer (s : System) : Except Fault System :=
  match s.dequeue with
  | .empty => .ok { s with dequeue := if s.q.front = -1 then .done else .index }
  | .index => .ok { s with dequeue := .data s.q.front }
  | .data i => do
    let value ← load s.q.data i
    .ok { s with value, dequeue := .last }
  | .last => .ok { s with dequeue := .last_rear s.q.front }
  | .last_rear front => .ok { s with dequeue := if front = s.q.rear then .reset_front else .advance }
  | .reset_front => .ok { s with q := { s.q with front := -1 }, dequeue := .reset_rear }
  | .reset_rear => .ok { s with q := { s.q with rear := -1 }, dequeue := .done }
  | .advance => .ok { s with dequeue := .set_front ((s.q.front + 1).tmod QUEUE_SIZE) }
  | .set_front front => .ok { s with q := { s.q with front }, dequeue := .done }
  | .done => .ok s

end Code

inductive Thread where
  | producer
  | consumer

def System.step (x : Word) (s : System) : Thread → Except Fault System
  | .producer => s.producer x
  | .consumer => s.consumer

def System.run (x : Word) (s : System) (order : List Thread) : Except Fault System :=
  order.foldlM (System.step x) s

def start (q : AtomicQueue) (value : Word) : System := ⟨q, value, .full, .empty⟩

def System.Returned (s : System) : Prop := s.enqueue = .done ∧ s.dequeue = .done

/-- What two calls leave that are made one after the other. -/
def InSomeOrder (q : AtomicQueue) (x value : Word) (s : System) : Prop :=
  (∃ q', queue_enqueue x q = .ok q' ∧ queue_dequeue value q' = .ok (s.value, s.q)) ∨
    ∃ q', queue_dequeue value q = .ok (s.value, q') ∧ queue_enqueue x q' = .ok s.q

/-- However the threads are switched: no access leaves the queue, and both calls together do what
they do in some order. -/
def Serializable (q : AtomicQueue) (x value : Word) : Prop :=
  ∀ order, ∃ s, (start q value).run x order = .ok s ∧ (s.Returned → InSomeOrder q x value s)

variable {data : ℕ → Word} {f r : ℕ} {q : AtomicQueue} {x value : Word} {s : System}

/-- If the queue is full, the consumer has made a place free. -/
def System.Room (f r : ℕ) (s : System) : Prop := next 100 r = f → s.dequeue = .done

/-- `rear` and `data`, from what the producer has done so far. -/
def Enqueue.Inv (data : ℕ → Word) (f r : ℕ) (x : Word) (s : System) : Enqueue → Prop
  | .full => s.q.rear = r ∧ s.q.data = data
  | .full_front rear => rear = r ∧ s.q.rear = r ∧ s.q.data = data
  | .first | .advance => s.q.rear = r ∧ s.q.data = data ∧ s.Room f r
  | .set_front => False
  | .set_rear rear => rear = (next 100 r : ℕ) ∧ s.q.rear = r ∧ s.q.data = data ∧ s.Room f r
  | .index => s.q.rear = (next 100 r : ℕ) ∧ s.q.data = data ∧ s.Room f r
  | .set_data i => i = (next 100 r : ℕ) ∧ s.q.rear = (next 100 r : ℕ) ∧ s.q.data = data ∧ s.Room f r
  | .done => s.q.rear = r ∧ s.q.data = data ∧ next 100 r = f ∨
      s.q.rear = (next 100 r : ℕ) ∧ s.q.data = Function.update data (next 100 r) x ∧ s.Room f r

/-- `front` and `*value`, from what the consumer has done so far. -/
def Dequeue.Inv (data : ℕ → Word) (f : ℕ) (s : System) : Dequeue → Prop
  | .empty | .index => s.q.front = f
  | .data i => i = f ∧ s.q.front = f
  | .last | .advance => s.q.front = f ∧ s.value = data f
  | .last_rear front => front = f ∧ s.q.front = f ∧ s.value = data f
  | .reset_front | .reset_rear => False
  | .set_front front => front = (next 100 f : ℕ) ∧ s.q.front = f ∧ s.value = data f
  | .done => s.q.front = (next 100 f : ℕ) ∧ s.value = data f

structure Inv (data : ℕ → Word) (f r : ℕ) (x : Word) (s : System) : Prop where
  enqueue : s.enqueue.Inv data f r x s
  dequeue : s.dequeue.Inv data f s

/-- What the consumer sees of the other end. -/
theorem Enqueue.Inv.sees {e : Enqueue} (h : e.Inv data f r x s) (hdone : s.dequeue ≠ .done) (hne : f ≠ r) :
    s.q.rear ≠ f ∧ s.q.data f = data f := by
  have hold : s.q.rear = r → s.q.data = data → s.q.rear ≠ f ∧ s.q.data f = data f := fun hrear hdata =>
    ⟨fun heq => hne (Int.ofNat_inj.mp (heq.symm.trans hrear)), congrFun hdata f⟩
  have hnew : s.q.rear = (next 100 r : ℕ) → s.Room f r → s.q.rear ≠ f := fun hrear hroom heq =>
    hdone (hroom (Int.ofNat_inj.mp (hrear.symm.trans heq)))
  cases e with
  | full => exact hold h.1 h.2
  | full_front rear => exact hold h.2.1 h.2.2
  | first => exact hold h.1 h.2.1
  | set_front => exact h.elim
  | advance => exact hold h.1 h.2.1
  | set_rear rear => exact hold h.2.1 h.2.2.1
  | index => exact ⟨hnew h.1 h.2.2, congrFun h.2.1 f⟩
  | set_data i => exact ⟨hnew h.2.1 h.2.2.2, congrFun h.2.2.1 f⟩
  | done =>
    rcases h with ⟨hrear, hdata, -⟩ | ⟨hrear, hdata, hroom⟩
    · exact hold hrear hdata
    · refine ⟨hnew hrear hroom, ?_⟩
      rw [hdata]
      exact Function.update_of_ne (fun heq => hdone (hroom heq.symm)) _ _

/-- What the producer sees of the other end. -/
theorem Dequeue.Inv.front {d : Dequeue} (h : d.Inv data f s) :
    s.q.front = f ∧ d ≠ .done ∨ s.q.front = (next 100 f : ℕ) ∧ d = .done := by
  cases d <;> simp only [Inv] at h <;> simp [h]

theorem producer_inv (hf : f < 100) (hr : r < 100) (hne : f ≠ r) (h : Inv data f r x s) :
    ∃ t, s.producer x = .ok t ∧ Inv data f r x t := by
  obtain ⟨henqueue, hdequeue⟩ := h
  have hfront := hdequeue.front
  have hnonneg : s.q.front ≠ -1 := by omega
  rw [System.producer]
  cases he : s.enqueue with
  | full =>
    rw [he] at henqueue
    exact ⟨_, rfl, ⟨henqueue.1, henqueue⟩, hdequeue⟩
  | full_front rear =>
    rw [he] at henqueue
    obtain ⟨rfl, hrear, hdata⟩ := henqueue
    refine ⟨_, rfl, ?_, hdequeue⟩
    rw [tmod_next hr]
    by_cases htest : ((next 100 r : ℕ) : ℤ) = s.q.front
    · rw [if_pos htest]
      refine .inl ⟨hrear, hdata, ?_⟩
      rcases hfront with ⟨hfront, -⟩ | ⟨hfront, -⟩
      · exact Int.ofNat_inj.mp (htest.trans hfront)
      · exact absurd (next_inj hr hf (Int.ofNat_inj.mp (htest.trans hfront))).symm hne
    · rw [if_neg htest]
      refine ⟨hrear, hdata, fun hfull => ?_⟩
      rcases hfront with ⟨hfront, -⟩ | ⟨-, hdone⟩
      · exact absurd (hfull ▸ hfront.symm) htest
      · exact hdone
  | first =>
    rw [he] at henqueue
    rw [if_neg hnonneg]
    exact ⟨_, rfl, henqueue, hdequeue⟩
  | set_front =>
    rw [he] at henqueue
    exact henqueue.elim
  | advance =>
    rw [he] at henqueue
    refine ⟨_, rfl, ⟨?_, henqueue⟩, hdequeue⟩
    rw [henqueue.1, tmod_next hr]
  | set_rear rear =>
    rw [he] at henqueue
    obtain ⟨rfl, -, hdata, hroom⟩ := henqueue
    exact ⟨_, rfl, ⟨rfl, hdata, hroom⟩, hdequeue⟩
  | index =>
    rw [he] at henqueue
    exact ⟨_, rfl, ⟨henqueue.1, henqueue⟩, hdequeue⟩
  | set_data i =>
    rw [he] at henqueue
    obtain ⟨rfl, hrear, hdata, hroom⟩ := henqueue
    dsimp only
    rw [store_eq (next_lt hr), hdata]
    exact ⟨_, rfl, .inr ⟨hrear, rfl, hroom⟩, hdequeue⟩
  | done =>
    rw [he] at henqueue
    exact ⟨s, rfl, he ▸ henqueue, hdequeue⟩

/-- The producer does not depend on what the consumer changes. -/
theorem Enqueue.Inv.of_consumer {t : System} {e : Enqueue} (h : e.Inv data f r x s)
    (hrear : t.q.rear = s.q.rear) (hdata : t.q.data = s.q.data) (hroom : s.Room f r → t.Room f r) :
    e.Inv data f r x t := by
  cases e with
  | full => exact ⟨hrear.trans h.1, hdata.trans h.2⟩
  | full_front rear => exact ⟨h.1, hrear.trans h.2.1, hdata.trans h.2.2⟩
  | first => exact ⟨hrear.trans h.1, hdata.trans h.2.1, hroom h.2.2⟩
  | set_front => exact h
  | advance => exact ⟨hrear.trans h.1, hdata.trans h.2.1, hroom h.2.2⟩
  | set_rear rear => exact ⟨h.1, hrear.trans h.2.1, hdata.trans h.2.2.1, hroom h.2.2.2⟩
  | index => exact ⟨hrear.trans h.1, hdata.trans h.2.1, hroom h.2.2⟩
  | set_data i => exact ⟨h.1, hrear.trans h.2.1, hdata.trans h.2.2.1, hroom h.2.2.2⟩
  | done =>
    rcases h with ⟨hr, hd, hfull⟩ | ⟨hr, hd, hs⟩
    · exact .inl ⟨hrear.trans hr, hdata.trans hd, hfull⟩
    · exact .inr ⟨hrear.trans hr, hdata.trans hd, hroom hs⟩

theorem consumer_inv (hf : f < 100) (hne : f ≠ r) (h : Inv data f r x s) :
    ∃ t, s.consumer = .ok t ∧ Inv data f r x t := by
  obtain ⟨henqueue, hdequeue⟩ := h
  have hroom : s.dequeue ≠ .done → ∀ t : System, s.Room f r → t.Room f r := fun hdone _ hroom heq =>
    absurd (hroom heq) hdone
  have hnonneg : (f : ℤ) ≠ -1 := by omega
  rw [System.consumer]
  cases hd : s.dequeue with
  | empty =>
    have hdone : s.dequeue ≠ .done := hd ▸ Dequeue.noConfusion
    rw [hd] at hdequeue
    have hfront : s.q.front = f := hdequeue
    rw [hfront, if_neg hnonneg]
    exact ⟨_, rfl, henqueue.of_consumer rfl rfl (hroom hdone _), hfront⟩
  | index =>
    have hdone : s.dequeue ≠ .done := hd ▸ Dequeue.noConfusion
    rw [hd] at hdequeue
    have hfront : s.q.front = f := hdequeue
    exact ⟨_, rfl, henqueue.of_consumer rfl rfl (hroom hdone _), hfront, hfront⟩
  | data i =>
    have hdone : s.dequeue ≠ .done := hd ▸ Dequeue.noConfusion
    rw [hd] at hdequeue
    obtain ⟨rfl, hfront⟩ := hdequeue
    dsimp only
    rw [load_eq hf]
    exact ⟨_, rfl, henqueue.of_consumer rfl rfl (hroom hdone _), hfront, (henqueue.sees hdone hne).2⟩
  | last =>
    have hdone : s.dequeue ≠ .done := hd ▸ Dequeue.noConfusion
    rw [hd] at hdequeue
    obtain ⟨hfront, hvalue⟩ := hdequeue
    exact ⟨_, rfl, henqueue.of_consumer rfl rfl (hroom hdone _), hfront, hfront, hvalue⟩
  | last_rear front =>
    have hdone : s.dequeue ≠ .done := hd ▸ Dequeue.noConfusion
    rw [hd] at hdequeue
    obtain ⟨rfl, hfront, hvalue⟩ := hdequeue
    dsimp only
    rw [if_neg (henqueue.sees hdone hne).1.symm]
    exact ⟨_, rfl, henqueue.of_consumer rfl rfl (hroom hdone _), hfront, hvalue⟩
  | reset_front =>
    rw [hd] at hdequeue
    exact hdequeue.elim
  | reset_rear =>
    rw [hd] at hdequeue
    exact hdequeue.elim
  | advance =>
    have hdone : s.dequeue ≠ .done := hd ▸ Dequeue.noConfusion
    rw [hd] at hdequeue
    obtain ⟨hfront, hvalue⟩ := hdequeue
    refine ⟨_, rfl, henqueue.of_consumer rfl rfl (hroom hdone _), ?_, hfront, hvalue⟩
    rw [hfront, tmod_next hf]
  | set_front front =>
    rw [hd] at hdequeue
    obtain ⟨rfl, -, hvalue⟩ := hdequeue
    exact ⟨_, rfl, henqueue.of_consumer rfl rfl fun _ _ => rfl, rfl, hvalue⟩
  | done =>
    rw [hd] at hdequeue
    exact ⟨s, rfl, henqueue, hd ▸ hdequeue⟩

theorem run_inv (hf : f < 100) (hr : r < 100) (hne : f ≠ r) (h : Inv data f r x s) (order : List Thread) :
    ∃ t, s.run x order = .ok t ∧ Inv data f r x t := by
  induction order generalizing s with
  | nil => exact ⟨s, rfl, h⟩
  | cons i order ih =>
    have hstep : ∃ t, s.step x i = .ok t ∧ Inv data f r x t := by
      cases i with
      | producer => exact producer_inv hf hr hne h
      | consumer => exact consumer_inv hf hne h
    obtain ⟨s', hs', h'⟩ := hstep
    obtain ⟨t, ht, hinv⟩ := ih h'
    refine ⟨t, ?_, hinv⟩
    rw [System.run, List.foldlM_cons, hs']
    exact ht

/-- A refused call comes first, and so does every call on a queue with a free place. On a full queue,
a call that was not refused comes second. -/
theorem Inv.inSomeOrder (hf : f < 100) (hr : r < 100) (hne : f ≠ r) (h : Inv data f r x s)
    (hreturned : s.Returned) : InSomeOrder (spanning data f r) x value s := by
  obtain ⟨henqueue, hdequeue⟩ := h
  rw [hreturned.1] at henqueue
  rw [hreturned.2] at hdequeue
  obtain ⟨hfront, hvalue⟩ := hdequeue
  have hq : ∀ data' r', s.q.rear = (r' : ℕ) → s.q.data = data' → spanning data' (next 100 f) r' = s.q := by
    intro data' r' hrear hdata
    rw [spanning, ← hrear, ← hdata, ← hfront]
  have hnext := next_lt hr
  rcases henqueue with ⟨hrear, hdata, hfull⟩ | ⟨hrear, hdata, -⟩
  · refine .inl ⟨_, enqueue_full hr hfull, ?_⟩
    rw [dequeue_spanning hf hne, hvalue, hq data r hrear hdata]
  · by_cases hfull : next 100 r = f
    · have hnot : next 100 r ≠ next 100 f := fun heq => hne (next_inj hr hf heq).symm
      refine .inr ⟨_, by rw [dequeue_spanning hf hne, hvalue], ?_⟩
      rw [enqueue_spanning hr hnot, hq _ _ hrear hdata]
    · have hsame : Function.update data (next 100 r) x f = data f :=
        Function.update_of_ne (Ne.symm hfull) _ _
      have hnot : f ≠ next 100 r := fun heq => hfull heq.symm
      refine .inl ⟨_, enqueue_spanning hr hfull, ?_⟩
      rw [dequeue_spanning hf hnot, hsame, hvalue, hq _ _ hrear hdata]

theorem serializable_spanning (hf : f < 100) (hr : r < 100) (hne : f ≠ r) (x value : Word) :
    Serializable (spanning data f r) x value := by
  intro order
  have hstart : Inv data f r x (start (spanning data f r) value) := ⟨⟨rfl, rfl⟩, rfl⟩
  obtain ⟨s, hrun, hinv⟩ := run_inv hf hr hne hstart order
  exact ⟨s, hrun, hinv.inSomeOrder hf hr hne⟩

/-- The producer has stored `front`, and not yet `rear`, when the consumer starts. -/
def halfway : List Thread := List.replicate 4 .producer ++ List.replicate 7 .consumer ++ List.replicate 4 .producer

/-- The consumer takes an element of an empty queue, and the queue seems to be full. -/
theorem run_halfway (data : ℕ → Word) : (start ⟨data, -1, -1⟩ value).run x halfway =
    .ok ⟨⟨Function.update data 0 x, 1, 0⟩, data 0, .done, .done⟩ := rfl

/-- How many elements two calls leave that are made one after the other. -/
theorem InSomeOrder.length (h : Valid q) (hs : InSomeOrder q x value s) (hlt : q.contents.length < 100) :
    s.q.contents.length = q.contents.length ∨ s.q.contents.length = q.contents.length - 1 + 1 := by
  rcases hs with ⟨q', henqueue, hdequeue⟩ | ⟨q', hdequeue, henqueue⟩
  · left
    obtain ⟨q₁, hrun, hvalid, hcontents⟩ := enqueue_spec h x
    obtain rfl := Except.ok.inj (henqueue.symm.trans hrun)
    obtain ⟨q₂, hrun₂, -, hcontents₂⟩ := dequeue_spec hvalid value
    obtain ⟨-, rfl⟩ := Prod.mk.inj (Except.ok.inj (hdequeue.symm.trans hrun₂))
    rw [hcontents₂, hcontents, if_pos hlt, List.length_tail, List.length_append, List.length_singleton,
      Nat.add_sub_cancel]
  · right
    obtain ⟨q₁, hrun, hvalid, hcontents⟩ := dequeue_spec h value
    obtain ⟨-, rfl⟩ := Prod.mk.inj (Except.ok.inj (hdequeue.symm.trans hrun))
    obtain ⟨q₂, hrun₂, -, hcontents₂⟩ := enqueue_spec hvalid x
    obtain rfl := Except.ok.inj (henqueue.symm.trans hrun₂)
    have htail : q'.contents.length < 100 := by
      rw [hcontents, List.length_tail]
      omega
    rw [hcontents₂, if_pos htail, List.length_append, List.length_singleton, hcontents, List.length_tail]

theorem not_serializable_empty (data : ℕ → Word) (x value : Word) :
    ¬Serializable ⟨data, -1, -1⟩ x value := by
  intro h
  obtain ⟨s, hrun, hsome⟩ := h halfway
  rw [run_halfway] at hrun
  obtain rfl := Except.ok.inj hrun
  have hlength : (spanning (Function.update data 0 x) 1 0).contents.length = 100 := by
    rw [contents_spanning, length_window]
    rfl
  have hempty : (AtomicQueue.mk data (-1) (-1)).contents.length < 100 := Nat.zero_lt_succ 99
  have hleft := (hsome ⟨rfl, rfl⟩).length (.empty data) hempty
  change (spanning (Function.update data 0 x) 1 0).contents.length = 0 ∨
    (spanning (Function.update data 0 x) 1 0).contents.length = 1 at hleft
  omega

/-- The consumer has found one element in the queue; it marks the queue as empty after the producer has put
another one in. -/
def overtaken : List Thread := List.replicate 5 .consumer ++ List.replicate 7 .producer ++ [.consumer, .consumer]

theorem run_overtaken (hf : f < 100) : (start (spanning data f f) value).run x overtaken =
    .ok ⟨⟨Function.update data (next 100 f) x, -1, -1⟩, data f, .done, .done⟩ := by
  have hnext := tmod_next hf
  have hne : ¬(f : ℤ) = -1 := by omega
  have hfull : ¬((next 100 f : ℕ) : ℤ) = f := by
    unfold next
    split_ifs <;> omega
  simp [System.run, overtaken, start, spanning, List.replicate, System.step, System.consumer, System.producer,
    hnext, hne, hfull, load_eq hf, store_eq (next_lt hf), bind, Except.bind, pure, Except.pure]

theorem not_serializable_last (hf : f < 100) (x value : Word) : ¬Serializable (spanning data f f) x value := by
  intro h
  obtain ⟨s, hrun, hsome⟩ := h overtaken
  rw [run_overtaken hf] at hrun
  obtain rfl := Except.ok.inj hrun
  have hone : (spanning data f f).contents.length = 1 := by
    rw [contents_spanning, length_window, extent_self]
  have hleft := (hsome ⟨rfl, rfl⟩).length (.spanning data hf hf) (by omega)
  rw [hone] at hleft
  change 0 = 1 ∨ 0 = 1 at hleft
  omega

theorem two_le_length (hf : f < 100) : 2 ≤ (spanning data f r).contents.length ↔ f ≠ r := by
  rw [contents_spanning, length_window, ← not_iff_not, not_not, ← extent_eq_zero (j := r) hf]
  omega

/-- Whatever is in the queue, `queue_enqueue` and `queue_dequeue` may go on at the same time exactly if it
has at least two elements. -/
theorem serializable_iff (h : Valid q) (x value : Word) : Serializable q x value ↔ 2 ≤ q.contents.length := by
  cases h with
  | empty data =>
    exact iff_of_false (not_serializable_empty data x value) fun hle => absurd hle (Nat.not_succ_le_zero 1)
  | @spanning data f r hf hr =>
    rw [two_le_length hf]
    constructor
    · intro hserializable heq
      subst heq
      exact not_serializable_last hf x value hserializable
    · exact fun hne => serializable_spanning hf hr hne x value

/-- Ten calls of `queue_enqueue` make such a queue, and the last element may be put in at the same time as
the first is taken out. -/
theorem serializable_iff_ten : Serializable (spanning (fun i => BitVec.ofNat 32 i) 0 9) 10 0 :=
  (serializable_iff (.spanning _ (by decide) (by decide)) 10 0).mpr (by decide)

end EquivChecker.CircularQueue
