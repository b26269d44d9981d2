import Mathlib.Data.List.Basic
import Mathlib.Data.List.Infix
import Mathlib.Data.List.Nodup
import Mathlib.Tactic.Linarith

/-!
# Odometers whose digit limits show up only when a digit is tried

A vector of `n` positive digits is tried, and the trial tells how many leading
digits could be used. The next vector increments the last digit that was used and
resets the later ones to 1; the sweep stops when no digit could be used. If a
digit that is too large stays too large when it grows, and every prefix leaves
only finitely many usable next digits, then the sweep stops, tries no vector
twice, and tries every vector all of whose digits can be used.
-/

namespace EquivChecker.Odometer

/-- The vectors of `n` positive digits. -/
structure Vec (n : ℕ) (c : List ℕ) : Prop where
  length : c.length = n
  pos : ∀ d ∈ c, 0 < d

/-- Increment digit `k - 1` and reset the digits from `k` on to 1. -/
def advance (k : ℕ) (c : List ℕ) : List ℕ :=
  (c.modify (k - 1) (· + 1)).take k ++ List.replicate (c.length - k) 1

@[simp] theorem advance_append (pre rest : List ℕ) (d : ℕ) :
    advance (pre.length + 1) (pre ++ d :: rest) =
      pre ++ (d + 1) :: List.replicate rest.length 1 := by
  have hmodify : (pre ++ d :: rest).modify pre.length (· + 1) = pre ++ (d + 1) :: rest := by
    simp [List.modify_eq_take_drop]
  have htake : (pre ++ (d + 1) :: rest).take (pre.length + 1) = pre ++ [d + 1] := by
    simp [List.take_append]
  have hlen : (pre ++ d :: rest).length - (pre.length + 1) = rest.length := by
    simp
    omega
  rw [advance, Nat.add_sub_cancel, hmodify, htake, hlen, List.append_assoc, List.singleton_append]

/-- `Sweep f k c L last`: from `c` the vectors of `L` are tried in this order, and `last`
is the first one that does not get past digit `k - 1`. -/
inductive Sweep (f : List ℕ → ℕ) (k : ℕ) : List ℕ → List (List ℕ) → List ℕ → Prop where
  | stop {c} (hc : f c ≤ k) : Sweep f k c [c] c
  | next {c L last} (hc : k < f c) (tail : Sweep f k (advance (f c) c) L last) :
      Sweep f k c (c :: L) last

/-- How the number of usable digits depends on the vector. -/
structure Limits (n : ℕ) (f : List ℕ → ℕ) : Prop where
  le : ∀ {c}, Vec n c → f c ≤ n
  mono : ∀ {pre rest rest' : List ℕ} {d d' : ℕ}, Vec n (pre ++ d :: rest) →
    Vec n (pre ++ d' :: rest') → d ≤ d' → f (pre ++ d :: rest) = pre.length →
    f (pre ++ d' :: rest') = pre.length
  bounded : ∀ pre : List ℕ, ∃ B, ∀ {d rest}, Vec n (pre ++ d :: rest) →
    pre.length < f (pre ++ d :: rest) → d ≤ B

variable {n k : ℕ} {f : List ℕ → ℕ} {c last last' : List ℕ} {L L' : List (List ℕ)}

theorem Vec.append_ones {pre : List ℕ} {m : ℕ} (hpre : ∀ d ∈ pre, 0 < d) (hm : pre.length + m = n) :
    Vec n (pre ++ List.replicate m 1) := by
  refine ⟨by simp [hm], fun d hd => ?_⟩
  rcases List.mem_append.mp hd with hd | hd
  · exact hpre d hd
  · simp [List.eq_of_mem_replicate hd]

theorem Vec.of_append {pre rest : List ℕ} (h : Vec n (pre ++ rest)) : ∀ d ∈ pre, 0 < d :=
  fun d hd => h.pos d (List.mem_append_left _ hd)

theorem Sweep.last_le (h : Sweep f k c L last) : f last ≤ k := by
  induction h with
  | stop hc => exact hc
  | next _ _ ih => exact ih

theorem Sweep.last_mem (h : Sweep f k c L last) : last ∈ L := by
  induction h with
  | stop => simp
  | next _ _ ih => exact List.mem_cons_of_mem _ ih

/-- A sweep that already stops before digit `k` is a sweep for digit `k` too. -/
theorem Sweep.of_le (h : Sweep f (k + 1) c L last) (hlast : f last ≤ k) : Sweep f k c L last := by
  induction h with
  | stop => exact .stop hlast
  | next hc _ ih => exact .next (by omega) (ih hlast)

/-- Sweeps for consecutive values of a digit compose to a sweep of the digit before it. -/
theorem Sweep.trans (h : Sweep f (k + 1) c L last) (hlast : k < f last)
    (h' : Sweep f k (advance (f last) last) L' last') : Sweep f k c (L ++ L') last' := by
  induction h with
  | stop => exact .next hlast h'
  | next hc _ ih => exact .next (by omega) (ih hlast h')

/-- A prefix that cannot be used fully cannot be used with any larger next digit. -/
theorem Limits.eq_of_le (h : Limits n f) {pre rest rest' : List ℕ} {d d' : ℕ}
    (hv : Vec n (pre ++ d :: rest)) (hv' : Vec n (pre ++ d' :: rest')) (hd : d ≤ d')
    (hf : f (pre ++ d :: rest) ≤ pre.length) :
    f (pre ++ d' :: rest') = f (pre ++ d :: rest) := by
  rcases Nat.lt_or_eq_of_le hf with hlt | heq
  · obtain ⟨l, e, r, rfl, hl⟩ : ∃ l e r, pre = l ++ e :: r ∧ l.length = f (pre ++ d :: rest) :=
      ⟨pre.take (f (pre ++ d :: rest)), pre[f (pre ++ d :: rest)], pre.drop (f (pre ++ d :: rest) + 1),
        by simp, by simp; omega⟩
    simp only [List.append_assoc, List.cons_append] at hv hv' hl ⊢
    rw [← hl]
    exact h.mono hv hv' le_rfl hl.symm
  · rw [heq]
    exact h.mono hv hv' hd heq

/-- What a sweep of the vectors that satisfy `S` achieves. -/
structure Covers (n : ℕ) (f : List ℕ → ℕ) (S : List ℕ → Prop) (L : List (List ℕ)) : Prop where
  vec : ∀ c ∈ L, Vec n c ∧ S c
  nodup : L.Nodup
  complete : ∀ c, Vec n c → S c → f c = n → c ∈ L

theorem prefix_cons {pre : List ℕ} {m : ℕ} (hm : pre.length + (m + 1) = n) (hc : Vec n c)
    (hpre : pre <+: c) : ∃ d rest, c = pre ++ d :: rest ∧ rest.length = m := by
  obtain ⟨rest, rfl⟩ := hpre
  have hlen := hc.length
  cases rest with
  | nil => simp at hlen; omega
  | cons d rest => exact ⟨d, rest, rfl, by simp at hlen; omega⟩

/-- The step: sweeping one digit from `d` on, given how the later digits are swept. -/
theorem Limits.sweep_digit (h : Limits n f) {pre : List ℕ} {m B : ℕ}
    (hm : pre.length + (m + 1) = n)
    (hB : ∀ {d rest}, Vec n (pre ++ d :: rest) → pre.length < f (pre ++ d :: rest) → d ≤ B)
    (ih : ∀ d, 0 < d → ∃ L last, Sweep f (pre.length + 1) (pre ++ d :: List.replicate m 1) L last ∧
      Covers n f (pre ++ [d] <+: ·) L) :
    ∀ i d, 0 < d → B + 1 - d = i →
      ∃ L last, Sweep f pre.length (pre ++ d :: List.replicate m 1) L last ∧
        Covers n f (fun c => ∃ e rest, d ≤ e ∧ c = pre ++ e :: rest) L := by
  intro i
  induction i using Nat.strong_induction_on with
  | h i ihi =>
    intro d hd hi
    obtain ⟨L, last, hsweep, hcov⟩ := ih d hd
    obtain ⟨hvlast, rest, hlast⟩ := hcov.vec last hsweep.last_mem
    replace hlast : last = pre ++ d :: rest := by simpa using hlast.symm
    have hsub : ∀ c ∈ L, ∃ rest, c = pre ++ d :: rest := by
      intro c hc
      obtain ⟨-, r, hr⟩ := hcov.vec c hc
      exact ⟨r, by simpa using hr.symm⟩
    rcases Nat.lt_or_ge pre.length (f last) with hgo | hstop
    · -- all digits up to this one were used: the next value of this digit is tried
      have hf : f last = pre.length + 1 := by
        have := hsweep.last_le
        omega
      have hrest : rest.length = m := by
        have hlen := hvlast.length
        simp [hlast] at hlen
        omega
      have hdB : d ≤ B := hB (hlast ▸ hvlast) (hlast ▸ hgo)
      obtain ⟨L', last', hsweep', hcov'⟩ := ihi (B + 1 - (d + 1)) (by omega) (d + 1) (by omega) rfl
      have hadv : advance (f last) last = pre ++ (d + 1) :: List.replicate m 1 := by
        rw [hf, hlast, advance_append, hrest]
      refine ⟨L ++ L', last', hsweep.trans hgo (hadv ▸ hsweep'), ?_, ?_, ?_⟩
      · intro c hc
        rcases List.mem_append.mp hc with hc | hc
        · obtain ⟨r, hr⟩ := hsub c hc
          exact ⟨(hcov.vec c hc).1, d, r, le_rfl, hr⟩
        · obtain ⟨hv, e, r, he, hr⟩ := hcov'.vec c hc
          exact ⟨hv, e, r, by omega, hr⟩
      · refine List.nodup_append.mpr ⟨hcov.nodup, hcov'.nodup, ?_⟩
        rintro a ha b hb rfl
        obtain ⟨r, hr⟩ := hsub a ha
        obtain ⟨-, e, r', he, hr'⟩ := hcov'.vec a hb
        have heq := List.append_cancel_left (hr.symm.trans hr')
        injection heq with hde _
        omega
      · rintro c hc ⟨e, r, he, rfl⟩ hfull
        rcases Nat.eq_or_lt_of_le he with rfl | hlt
        · exact List.mem_append_left _ (hcov.complete _ hc ⟨r, by simp⟩ hfull)
        · exact List.mem_append_right _ (hcov'.complete _ hc ⟨e, r, by omega, rfl⟩ hfull)
    · -- this digit or an earlier one could not be used: larger values cannot be used either
      refine ⟨L, last, hsweep.of_le hstop, ?_, hcov.nodup, ?_⟩
      · intro c hc
        obtain ⟨r, hr⟩ := hsub c hc
        exact ⟨(hcov.vec c hc).1, d, r, le_rfl, hr⟩
      · rintro c hc ⟨e, r, he, rfl⟩ hfull
        rcases Nat.eq_or_lt_of_le he with rfl | hlt
        · exact hcov.complete _ hc ⟨r, by simp⟩ hfull
        · have heq := h.eq_of_le (hlast ▸ hvlast) hc he (hlast ▸ hstop)
          rw [← hlast] at heq
          omega

/-- Sweeping all digits after a prefix; the induction is on their number. -/
theorem Limits.sweep_prefix (h : Limits n f) (m : ℕ) : ∀ pre : List ℕ, pre.length + m = n →
    (∀ d ∈ pre, 0 < d) → ∃ L last, Sweep f pre.length (pre ++ List.replicate m 1) L last ∧
      Covers n f (pre <+: ·) L := by
  induction m with
  | zero =>
    intro pre hm hpos
    have hv : Vec n pre := ⟨hm, hpos⟩
    refine ⟨[pre], pre, ?_, ?_, by simp, ?_⟩
    · have hle : f pre ≤ pre.length := by
        have := h.le hv
        omega
      simpa using Sweep.stop hle
    · intro c hc
      rw [List.mem_singleton.mp hc]
      exact ⟨hv, List.prefix_rfl⟩
    · intro c hc hpre _
      have heq : pre = c := hpre.eq_of_length (by rw [hc.length, ← hm, Nat.add_zero])
      simp [heq]
  | succ m ih =>
    intro pre hm hpos
    obtain ⟨B, hB⟩ := h.bounded pre
    have ih' : ∀ d, 0 < d → ∃ L last,
        Sweep f (pre.length + 1) (pre ++ d :: List.replicate m 1) L last ∧
          Covers n f (pre ++ [d] <+: ·) L := by
      intro d hd
      have hpos' : ∀ e ∈ pre ++ [d], 0 < e := by
        intro e he
        rcases List.mem_append.mp he with he | he
        · exact hpos e he
        · exact List.mem_singleton.mp he ▸ hd
      obtain ⟨L, last, hsweep, hcov⟩ := ih (pre ++ [d]) (by simp; omega) hpos'
      exact ⟨L, last, by simpa using hsweep, hcov⟩
    obtain ⟨L, last, hsweep, hcov⟩ := h.sweep_digit hm hB ih' _ 1 (by omega) rfl
    refine ⟨L, last, by simpa [List.replicate_succ] using hsweep, ?_, hcov.nodup, ?_⟩
    · intro c hc
      obtain ⟨hv, e, r, -, rfl⟩ := hcov.vec c hc
      exact ⟨hv, List.prefix_append _ _⟩
    · intro c hc hpre hfull
      obtain ⟨d, r, rfl, -⟩ := prefix_cons hm hc hpre
      exact hcov.complete _ hc ⟨d, r, hc.pos d (by simp), rfl⟩ hfull

/-- The sweep from all ones stops, and covers all vectors. -/
theorem Limits.sweep (h : Limits n f) : ∃ L last,
    Sweep f 0 (List.replicate n 1) L last ∧ Covers n f (fun _ => True) L := by
  obtain ⟨L, last, hsweep, hcov⟩ := h.sweep_prefix n [] (by simp) (by simp)
  exact ⟨L, last, by simpa using hsweep, fun c hc => ⟨(hcov.vec c hc).1, trivial⟩, hcov.nodup,
    fun c hc _ hfull => hcov.complete c hc List.nil_prefix hfull⟩

end EquivChecker.Odometer
