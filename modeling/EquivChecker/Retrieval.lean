import EquivChecker.NullReads

/-!
# Taking a thread out of the run queue

`retrieve_tid_from_queue` turns the queue until the thread is in front, and panics after
a full turn. Alone in the queue, a thread that is not the one looked for is in nobody's
way: the next pop finds the queue empty before the turn is complete.
-/

namespace EquivChecker

open Checker

variable {s : Checker (List ℕ)} {threads : ℕ → EqTh} {tid first_tid fuel x y : ℕ} {q l r : List ℕ}

/-- From any other thread on the loop gets back to the first one, and panics. -/
theorem retrieveLoop_panic (hq : y :: q = l ++ x :: r) (hl : l ≠ [])
    (hx : (threads x).tid = first_tid) (hfirst : ∀ z ∈ l.tail, (threads z).tid ≠ first_tid)
    (habsent : ∀ z ∈ y :: q, (threads z).tid ≠ tid) (hfuel : l.length ≤ fuel) :
    retrieveLoop threads tid first_tid fuel y q =
      .error (.panic "specified tid is not in the queue") := by
  induction l generalizing y q r fuel with
  | nil => exact absurd rfl hl
  | cons z l ih =>
    rw [List.cons_append] at hq
    obtain ⟨rfl, rfl⟩ := List.cons.inj hq
    obtain ⟨fuel, rfl⟩ := Nat.exists_eq_succ_of_ne_zero (Nat.ne_of_gt (Nat.zero_lt_of_lt hfuel))
    rw [retrieveLoop, if_neg (habsent y List.mem_cons_self)]
    cases l with
    | nil =>
      simp only [RunQueue.list_pop, List.nil_append, List.head?_cons]
      rw [if_pos hx]
    | cons u l =>
      have hu := hfirst u List.mem_cons_self
      simp only [RunQueue.list_pop, List.cons_append, List.head?_cons, List.tail_cons,
        RunQueue.list_append]
      rw [if_neg hu]
      have hturned : u :: (l ++ x :: r ++ [y]) = u :: l ++ x :: (r ++ [y]) := by simp
      refine ih hturned (List.cons_ne_nil u l)
        (fun z hz => hfirst z (List.mem_cons_of_mem u hz)) (fun z hz => habsent z ?_)
        (Nat.le_of_succ_le_succ hfuel)
      simp only [List.mem_cons, List.mem_append, List.not_mem_nil, or_false] at hz ⊢
      tauto

theorem retrieve_absent (hq : s.equiv_runq = x :: y :: q)
    (htids : (s.equiv_runq.map fun th => (s.threads th).tid).Nodup)
    (hlen : s.equiv_runq.length ≤ s.allocated) (habsent : ∀ th ∈ s.equiv_runq, (s.threads th).tid ≠ tid) :
    retrieve_tid_from_queue tid s = .error (.panic "specified tid is not in the queue") := by
  rw [hq] at htids hlen habsent
  rw [List.map_cons] at htids
  have hne : ∀ z ∈ y :: q, (s.threads z).tid ≠ (s.threads x).tid := fun z hz heq =>
    (List.nodup_cons.mp htids).1 (List.mem_map.mpr ⟨z, hz, heq⟩)
  rw [List.length_cons, List.length_cons] at hlen
  obtain ⟨fuel, hfuel⟩ := Nat.exists_eq_succ_of_ne_zero (show s.allocated ≠ 0 by omega)
  -- the first turn puts the first thread at the end
  have hturn : retrieveLoop s.threads tid (s.threads x).tid fuel y (q ++ [x]) =
      .error (.panic "specified tid is not in the queue") := by
    refine retrieveLoop_panic (show y :: (q ++ [x]) = y :: q ++ x :: [] from rfl) (List.cons_ne_nil y q)
      rfl (fun z hz => hne z (List.mem_cons_of_mem y hz)) (fun z hz => habsent z ?_) ?_
    · simp only [List.mem_cons, List.mem_append, List.not_mem_nil, or_false] at hz ⊢
      tauto
    · rw [List.length_cons]
      omega
  rw [retrieve_tid_from_queue, hq, hfuel]
  simp only [RunQueue.list_pop, List.head?_cons, List.tail_cons]
  rw [retrieveLoop, if_neg (habsent x List.mem_cons_self)]
  simp only [RunQueue.list_pop, List.head?_cons, List.tail_cons, RunQueue.list_append]
  rw [if_neg (hne y List.mem_cons_self), hturn]
  rfl

/-- What `retrieve_tid_from_queue` is to do: return the thread, with the others behind it in
their cyclic order, or panic. -/
structure Retrieves (tid : ℕ) (s : Checker (List ℕ)) : Prop where
  queued : ∀ l x r, s.equiv_runq = l ++ x :: r → (s.threads x).tid = tid →
    retrieve_tid_from_queue tid s = .ok (x, { s with equiv_runq := r ++ l })
  absent : (∀ th ∈ s.equiv_runq, (s.threads th).tid ≠ tid) →
    retrieve_tid_from_queue tid s = .error (.panic "specified tid is not in the queue")

/-- It does so unless a single thread is queued and another one looked for. -/
theorem retrieves_iff (hne : s.equiv_runq ≠ [])
    (htids : (s.equiv_runq.map fun th => (s.threads th).tid).Nodup)
    (hallocated : ∀ th ∈ s.equiv_runq, th < s.allocated) (tid : ℕ) :
    Retrieves tid s ↔ 2 ≤ s.equiv_runq.length ∨ ∃ th ∈ s.equiv_runq, (s.threads th).tid = tid := by
  have hlen : s.equiv_runq.length ≤ s.allocated := by
    have hsub : s.equiv_runq ⊆ List.range s.allocated := fun th hth => List.mem_range.mpr (hallocated th hth)
    have hle := (htids.of_map _).subperm hsub
    simpa using hle.length_le
  constructor
  · intro h
    by_contra hnot
    push Not at hnot
    obtain ⟨hshort, habsent⟩ := hnot
    obtain ⟨x, hx⟩ := List.length_eq_one_iff.mp
      (Nat.le_antisymm (Nat.le_of_lt_succ hshort) (List.length_pos_of_ne_nil hne))
    have hpanic := h.absent habsent
    have hnull : retrieve_tid_from_queue tid s = .error .nullDeref := by
      rw [hx] at habsent hlen
      obtain ⟨fuel, hfuel⟩ := Nat.exists_eq_succ_of_ne_zero (Nat.ne_of_gt hlen)
      rw [retrieve_tid_from_queue, hx, hfuel]
      simp only [RunQueue.list_pop, List.head?_cons, List.tail_cons]
      rw [retrieveLoop, if_neg (habsent x List.mem_cons_self)]
      rfl
    rw [hnull] at hpanic
    cases hpanic
  · intro h
    refine ⟨fun l x r hq hx => hx ▸ retrieve_tid_from_queue_eq hq htids hlen, fun habsent => ?_⟩
    rcases h with hlong | ⟨th, hth, heq⟩
    · cases hq : s.equiv_runq with
      | nil => exact absurd hq hne
      | cons x q =>
        cases q with
        | nil =>
          rw [hq] at hlong
          simp at hlong
        | cons y q => exact retrieve_absent hq htids hlen habsent
    · exact absurd heq (habsent th hth)

theorem retrieves_iff_two : Retrieves 7 twoThreads :=
  (retrieves_iff (by decide) (by decide) (by decide) 7).mpr (.inl (by decide))

/-- The only thread has another number. -/
theorem single_not_retrieved : single.equiv_runq = [0] ∧ (single.threads 0).tid ≠ 7 ∧
    retrieve_tid_from_queue 7 single = .error .nullDeref ∧ ¬Retrieves 7 single := by
  have hnull : retrieve_tid_from_queue 7 single = .error .nullDeref := rfl
  refine ⟨rfl, by decide, hnull, fun h => ?_⟩
  have hpanic := h.absent (by decide)
  rw [hnull] at hpanic
  cases hpanic

end EquivChecker
