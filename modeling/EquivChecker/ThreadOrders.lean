import EquivChecker.Interleaver
import Mathlib.Data.Nat.Digits.Lemmas

/-!
# The thread orders

Read with the first entry as the least significant digit, `next_tid` counts up and
skips the orders in which a thread follows itself.
-/

namespace EquivChecker.Interleaver

/-- The vectors of `len` thread numbers. -/
structure Order (num_funcs len : ℕ) (tids : List ℕ) : Prop where
  length : tids.length = len
  range : ∀ t ∈ tids, 0 < t ∧ t ≤ num_funcs

def rank (num_funcs : ℕ) (tids : List ℕ) : ℕ := Nat.ofDigits num_funcs (tids.map (· - 1))

variable {num_funcs len : ℕ} {tids tids' : List ℕ}

theorem rank_cons (t : ℕ) (ts : List ℕ) :
    rank num_funcs (t :: ts) = (t - 1) + num_funcs * rank num_funcs ts := by
  simp [rank, Nat.ofDigits_cons]

theorem Order.tail {t : ℕ} {ts : List ℕ} (h : Order num_funcs (len + 1) (t :: ts)) :
    Order num_funcs len ts :=
  ⟨by simpa using h.length, fun x hx => h.range x (List.mem_cons_of_mem t hx)⟩

theorem Order.cons {t : ℕ} {ts : List ℕ} (h : Order num_funcs len ts) (ht : 0 < t)
    (hn : t ≤ num_funcs) : Order num_funcs (len + 1) (t :: ts) := by
  refine ⟨by simp [h.length], fun x hx => ?_⟩
  rcases List.mem_cons.mp hx with rfl | hx
  · exact ⟨ht, hn⟩
  · exact h.range x hx

theorem Order.rank_lt (h : Order num_funcs len tids) (hn : 1 < num_funcs) :
    rank num_funcs tids < num_funcs ^ len := by
  have hlt := Nat.ofDigits_lt_base_pow_length (b := num_funcs) (l := tids.map (· - 1)) hn (by
    intro x hx
    obtain ⟨t, ht, rfl⟩ := List.mem_map.mp hx
    have := h.range t ht
    omega)
  simpa [rank, h.length] using hlt

theorem Order.rank_inj (h : Order num_funcs len tids) (h' : Order num_funcs len tids')
    (hn : 1 < num_funcs) (heq : rank num_funcs tids = rank num_funcs tids') : tids = tids' := by
  have hdigit : ∀ {ts : List ℕ}, Order num_funcs len ts → ∀ l ∈ ts.map (· - 1), l < num_funcs := by
    intro ts hts l hl
    obtain ⟨t, ht, rfl⟩ := List.mem_map.mp hl
    have := hts.range t ht
    omega
  have hmap := Nat.ofDigits_inj_of_len_eq hn (by simp [h.length, h'.length]) (hdigit h) (hdigit h') heq
  have hback : ∀ {ts : List ℕ}, Order num_funcs len ts → (ts.map (· - 1)).map (· + 1) = ts := by
    intro ts hts
    rw [List.map_map]
    refine (List.map_congr_left fun t ht => ?_).trans (List.map_id ts)
    have := hts.range t ht
    simp
    omega
  rw [← hback h, ← hback h', hmap]

theorem increment_cons (carry : Bool) (t : ℕ) (ts : List ℕ) :
    increment num_funcs carry (t :: ts) =
      if num_funcs < t + carry.toNat then
        (1 :: (increment num_funcs true ts).1, (increment num_funcs true ts).2)
      else ((t + carry.toNat) :: (increment num_funcs false ts).1, (increment num_funcs false ts).2) := by
  cases carry <;> rfl

/-- A pass of `next_tid` adds the carry. -/
theorem increment_spec (carry : Bool) (h : Order num_funcs len tids) :
    Order num_funcs len (increment num_funcs carry tids).1 ∧
      rank num_funcs (increment num_funcs carry tids).1 +
          (increment num_funcs carry tids).2.toNat * num_funcs ^ len =
        rank num_funcs tids + carry.toNat := by
  induction tids generalizing carry len with
  | nil =>
    have hlen : len = 0 := h.length.symm
    subst hlen
    exact ⟨h, by simp [increment]⟩
  | cons t ts ih =>
    obtain ⟨len, rfl⟩ : ∃ l, len = l + 1 := ⟨ts.length, by simpa using h.length.symm⟩
    have ht := h.range t List.mem_cons_self
    rw [increment_cons]
    split
    · obtain ⟨hord, hrank⟩ := ih true h.tail
      have hcarry := carry.toNat_le
      refine ⟨hord.cons (by omega) (by omega), ?_⟩
      have hsum : t - 1 + carry.toNat = num_funcs := by omega
      rw [Bool.toNat_true] at hrank
      calc rank num_funcs (1 :: (increment num_funcs true ts).1) +
            (increment num_funcs true ts).2.toNat * num_funcs ^ (len + 1)
          = num_funcs * (rank num_funcs (increment num_funcs true ts).1 +
              (increment num_funcs true ts).2.toNat * num_funcs ^ len) := by
            rw [rank_cons]
            ring
        _ = num_funcs * (rank num_funcs ts + 1) := by rw [hrank]
        _ = rank num_funcs (t :: ts) + carry.toNat := by
            rw [rank_cons]
            linarith
    · rename_i hfits
      obtain ⟨hord, hrank⟩ := ih false h.tail
      refine ⟨hord.cons (by omega) (by omega), ?_⟩
      have hsum : t + carry.toNat - 1 = t - 1 + carry.toNat := by omega
      rw [Bool.toNat_false, Nat.add_zero] at hrank
      calc rank num_funcs ((t + carry.toNat) :: (increment num_funcs false ts).1) +
            (increment num_funcs false ts).2.toNat * num_funcs ^ (len + 1)
          = t - 1 + carry.toNat + num_funcs * (rank num_funcs (increment num_funcs false ts).1 +
              (increment num_funcs false ts).2.toNat * num_funcs ^ len) := by
            rw [rank_cons, hsum]
            ring
        _ = rank num_funcs (t :: ts) + carry.toNat := by
            rw [hrank, rank_cons]
            ring

/-- What `next_tid` returns: the valid order of the next rank, or none if there is none. -/
def IsNext (num_funcs len : ℕ) (tids : List ℕ) : Option (List ℕ) → Prop
  | none => ∀ u, Order num_funcs len u → tids_valid u → rank num_funcs u ≤ rank num_funcs tids
  | some next => Order num_funcs len next ∧ tids_valid next ∧ rank num_funcs tids < rank num_funcs next ∧
      ∀ u, Order num_funcs len u → tids_valid u → rank num_funcs tids < rank num_funcs u →
        rank num_funcs next ≤ rank num_funcs u

theorem next_tid_loop_spec (hn : 1 < num_funcs) (fuel : ℕ) (h : Order num_funcs len tids)
    (hfuel : num_funcs ^ len ≤ rank num_funcs tids + fuel) :
    ∃ r, next_tid_loop num_funcs fuel tids = .ok r ∧ IsNext num_funcs len tids r := by
  induction fuel generalizing tids with
  | zero =>
    have := h.rank_lt hn
    omega
  | succ fuel ih =>
    obtain ⟨hord, hrank⟩ := increment_spec true h
    unfold next_tid_loop
    generalize increment num_funcs true tids = r at hord hrank
    obtain ⟨ts, carry⟩ := r
    have hlt := hord.rank_lt hn
    dsimp only at hord hrank hlt ⊢
    cases carry with
    | true =>
      simp only [Bool.toNat_true, one_mul] at hrank
      refine ⟨none, rfl, fun u hu _ => ?_⟩
      have := hu.rank_lt hn
      omega
    | false =>
      simp only [Bool.toNat_false, Bool.toNat_true, zero_mul, add_zero] at hrank
      cases hvalid : tids_valid ts with
      | true =>
        refine ⟨some ts, rfl, hord, hvalid, by omega, fun u _ _ hu => by omega⟩
      | false =>
        obtain ⟨r, hr, hnext⟩ := ih hord (by omega)
        refine ⟨r, hr, ?_⟩
        have hskip : ∀ u, Order num_funcs len u → tids_valid u →
            rank num_funcs tids < rank num_funcs u → rank num_funcs ts < rank num_funcs u := by
          intro u hu huvalid hlt
          refine lt_of_le_of_ne (by omega) fun heq => ?_
          rw [hord.rank_inj hu hn heq, huvalid] at hvalid
          cases hvalid
        cases r with
        | none =>
          intro u hu huvalid
          by_contra hlt
          exact absurd (hnext u hu huvalid) (by
            have := hskip u hu huvalid (by omega)
            omega)
        | some next =>
          obtain ⟨hnord, hnvalid, hnrank, hleast⟩ := hnext
          exact ⟨hnord, hnvalid, by omega,
            fun u hu huvalid hlt => hleast u hu huvalid (hskip u hu huvalid hlt)⟩

/-- `next_tid` ends, with the next valid order. -/
theorem next_tid_spec (hn : 1 < num_funcs) (h : Order num_funcs len tids) :
    ∃ r, next_tid num_funcs tids = .ok r ∧ IsNext num_funcs len tids r := by
  apply next_tid_loop_spec hn _ h
  rw [h.length]
  omega

theorem order_ones (hn : 0 < num_funcs) (len : ℕ) : Order num_funcs len (List.replicate len 1) := by
  refine ⟨by simp, fun t ht => ?_⟩
  rw [List.eq_of_mem_replicate ht]
  omega

theorem rank_ones (len : ℕ) : rank num_funcs (List.replicate len 1) = 0 := by
  induction len with
  | zero => rfl
  | succ len ih => rw [List.replicate_succ, rank_cons, ih]; rfl

/-- Two threads in turn. -/
theorem exists_valid (hn : 1 < num_funcs) (len : ℕ) : ∀ t, 0 < t → t ≤ 2 →
    ∃ ts, Order num_funcs (len + 1) (t :: ts) ∧ tids_valid (t :: ts) := by
  induction len with
  | zero =>
    intro t ht ht2
    refine ⟨[], ⟨rfl, fun x hx => ?_⟩, rfl⟩
    rw [List.mem_singleton.mp hx]
    omega
  | succ len ih =>
    intro t ht ht2
    obtain ⟨ts, hord, hvalid⟩ := ih (3 - t) (by omega) (by omega)
    refine ⟨_, hord.cons ht (by omega), ?_⟩
    have hne : t ≠ 3 - t := by omega
    simp [tids_valid, hne, hvalid]

/-- There is a first valid order. -/
theorem next_tid_ones (hn : 1 < num_funcs) (hlen : 0 < len) :
    ∃ tids, next_tid num_funcs (List.replicate len 1) = .ok (some tids) ∧
      Order num_funcs len tids ∧ tids_valid tids ∧
      ∀ u, Order num_funcs len u → tids_valid u → 0 < rank num_funcs u →
        rank num_funcs tids ≤ rank num_funcs u := by
  obtain ⟨r, hr, hnext⟩ := next_tid_spec hn (order_ones (by omega) len)
  cases r with
  | none =>
    obtain ⟨len, rfl⟩ : ∃ l, len = l + 1 := ⟨len - 1, by omega⟩
    obtain ⟨ts, hord, hvalid⟩ := exists_valid hn len 2 (by omega) le_rfl
    have hle := hnext _ hord hvalid
    rw [rank_ones, rank_cons] at hle
    omega
  | some tids =>
    obtain ⟨hord, hvalid, -, hleast⟩ := hnext
    exact ⟨tids, hr, hord, hvalid, by rwa [rank_ones] at hleast⟩

end EquivChecker.Interleaver
