import EquivChecker.HeapSessions

/-!
# Which block is allocated

What `equiv_malloc` does to the blocks of the `next_block` walk: a free block of the least
sufficient size is used, and split if the rest has room for a block of its own.
-/

namespace EquivChecker.Malloc

open Heap Malloc.Field

/-- The payload that a request needs: at least 16 bytes, and a multiple of 8. -/
def blockSize (requested_size : ℕ) : ℕ := (max requested_size 16 + 7) / 8 * 8

/-- A free block of the least size from `size` on. -/
structure BestFit (bs : List Block) (size : ℕ) (b : Block) : Prop where
  free : b.free = true
  fits : size ≤ b.size
  least : ∀ c ∈ bs, c.free = true → size ≤ c.size → b.size ≤ c.size

/-- What becomes of a free block that is allocated. -/
def allocated (b : Block) (size : ℕ) : List Block :=
  if 20 ≤ b.size - size then
    [⟨b.start, size, false⟩, ⟨b.start + 4 + size, b.size - size - 4, true⟩]
  else [⟨b.start, b.size, false⟩]

variable {s t : Heap} {n : ℕ} {fl : List ℕ} {bs : List Block}

theorem needed_eq (hn : n ≤ MAX_REQUEST_SIZE) : needed n = blockSize n := by
  have hmin : MINIMUM_PAYLOAD = 16 := rfl
  by_cases hsmall : n < MINIMUM_PAYLOAD
  · rw [needed, if_pos hsmall, roundup_eq (by decide), blockSize, hmin, max_eq_right (by omega)]
  · rw [needed, if_neg hsmall, roundup_eq hn, blockSize, max_eq_left (by omega)]

/-- A request is refused only where it has to be, and gets a best fit otherwise; all other
blocks stay as they are. -/
theorem equiv_malloc_best_fit (hg : Good s bs fl) (hne : fl ≠ []) (n : ℕ) : ∃ q t,
    equiv_malloc n s = .ok (q, t) ∧
      (q = 0 ↔ n = 0 ∨ MAX_REQUEST_SIZE < n ∨
        ∀ b ∈ layout s, b.free = true → b.size < blockSize n) ∧
      (q = 0 → t = s) ∧
      (q ≠ 0 → ∃ l b r, layout s = l ++ b :: r ∧ BestFit (layout s) (blockSize n) b ∧
        q = get_payload_start b.start ∧ layout t = l ++ (allocated b (blockSize n) ++ r) ∧
        ∃ fl', Good t (layout t) fl') := by
  rw [hg.layout]
  by_cases hcond : n = 0 ∨ MAX_REQUEST_SIZE < n
  · have hrefused : n = 0 ∨ MAX_REQUEST_SIZE < n ∨ ∀ b ∈ bs, b.free = true → b.size < blockSize n :=
      hcond.imp_right .inl
    exact ⟨0, s, equiv_malloc_refused s hcond, iff_of_true rfl hrefused, fun _ => rfl,
      fun h => absurd rfl h⟩
  · obtain ⟨hn, hmax⟩ : 0 < n ∧ n ≤ MAX_REQUEST_SIZE := by omega
    have hspec := equiv_malloc_spec hg hne hn hmax
    rw [needed_eq hmax] at hspec
    rcases hspec with ⟨hnone, hsmall⟩ | ⟨l, b, r, t, rfl, hfree, hfits, hleast, hrun, hgt, -⟩
    · exact ⟨0, s, hnone, iff_of_true rfl (.inr (.inr hsmall)), fun _ => rfl, fun h => absurd rfl h⟩
    · refine ⟨_, t, hrun, iff_of_false (payload_ne_zero _) ?_, fun h => absurd h (payload_ne_zero _),
        fun _ => ⟨l, b, r, rfl, ⟨hfree, hfits, hleast⟩, rfl, hgt.layout, _, hgt.layout ▸ hgt⟩⟩
      rintro (rfl | hlarge | hsmall)
      · exact hn.ne' rfl
      · exact hmax.not_gt hlarge
      · exact hfits.not_gt (hsmall b (by simp) hfree)

/-- A request for 20 bytes, with a free block of 48 bytes and one of 180. -/
theorem equiv_malloc_best_fit_two : ∃ s t,
    layout s = [⟨64, 48, true⟩, ⟨116, 16, false⟩, ⟨136, 180, true⟩] ∧ equiv_malloc 20 s = .ok (68, t) ∧
      layout t = [⟨64, 24, false⟩, ⟨92, 20, true⟩, ⟨116, 16, false⟩, ⟨136, 180, true⟩] := by
  have hsession : ((equiv_malloc_init 64 256 fun _ => 0).bind fun s =>
      (Session.replay Session.Quiet [.call (.malloc 48), .call (.malloc 16), .call (.free 68)] ⟨s, []⟩).map
        fun S => layout S.heap) = some [⟨64, 48, true⟩, ⟨116, 16, false⟩, ⟨136, 180, true⟩] := by
    decide +kernel
  obtain ⟨s, hinit, hsession⟩ := Option.bind_eq_some_iff.mp hsession
  obtain ⟨S, hreplay, hlayout⟩ := Option.map_eq_some_iff.mp hsession
  obtain ⟨bs, fl, hsound, hne, -, -⟩ := Session.reaches_quiet hinit (by decide) (by decide) (by decide)
    (Session.Reaches.start.replay hreplay)
  obtain ⟨q, t, hrun, hnull, -, hdone⟩ := equiv_malloc_best_fit hsound.1 hne 20
  rw [hlayout] at hnull hdone
  have hq : q ≠ 0 := by
    rw [Ne, hnull]
    decide
  obtain ⟨l, b, r, hbs, hbest, rfl, ht, -⟩ := hdone hq
  have hleast : b.size ≤ 48 := hbest.least ⟨64, 48, true⟩ List.mem_cons_self rfl (by decide)
  have hfree := hbest.free
  obtain ⟨rfl, rfl, rfl⟩ : l = [] ∧ b = ⟨64, 48, true⟩ ∧
      r = [⟨116, 16, false⟩, ⟨136, 180, true⟩] := by
    match l, hbs with
    | [], hbs => simpa [eq_comm] using hbs
    | [_], hbs =>
      simp only [List.cons_append, List.nil_append, List.cons.injEq] at hbs
      simp [← hbs.2.1] at hfree
    | [_, _], hbs =>
      simp only [List.cons_append, List.nil_append, List.cons.injEq] at hbs
      simp [← hbs.2.2.1] at hleast
    | _ :: _ :: _ :: _, hbs => simp at hbs
  exact ⟨S.heap, t, hlayout, hrun, ht⟩

end EquivChecker.Malloc
