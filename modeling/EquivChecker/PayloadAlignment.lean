import EquivChecker.BestFit

/-!
# Alignment of payloads

A payload starts behind a word of metadata. The first block starts where the heap does, so
the first pointer that is returned lies four bytes behind an aligned address.
-/

namespace EquivChecker.Malloc

open Heap Malloc.Field

namespace Session

/-- Valid events one after another, with the pointers that the calls return. -/
inductive Runs : Session → List Event → List ℕ → Session → Prop
  | nil {S : Session} : Runs S [] [] S
  | call {S T : Session} {c : Call} {q : ℕ} {s : Heap} {es : List Event} {qs : List ℕ}
      (hvalid : S.Valid (.call c)) (hrun : c.run S.heap = .ok (q, s))
      (h : Runs ⟨s, c.relive q S.live⟩ es qs T) : Runs S (.call c :: es) (q :: qs) T
  | write {S T U : Session} {a : ℕ} {v : BitVec 8} {es : List Event} {qs : List ℕ}
      (hvalid : S.Valid (.write a v)) (hstep : S.step (.write a v) = .ok U) (h : Runs U es qs T) :
      Runs S (.write a v :: es) qs T

end Session

/-- A fresh heap of this size cannot serve the request. -/
def Unserved (heap_size requested_size : ℕ) : Prop :=
  requested_size = 0 ∨ MAX_REQUEST_SIZE < requested_size ∨
    heap_size - metadata_size < blockSize requested_size

instance (heap_size requested_size : ℕ) : Decidable (Unserved heap_size requested_size) :=
  inferInstanceAs (Decidable (_ ∨ _ ∨ _))

/-- The call asks for nothing that a fresh heap can serve. -/
def Call.Unserved (heap_size : ℕ) : Call → Prop
  | malloc requested_size => Malloc.Unserved heap_size requested_size
  | realloc old_ptr new_size => old_ptr = 0 → Malloc.Unserved heap_size new_size
  | free _ => True

variable {heap_start heap_size n : ℕ} {mem : Bytes} {s : Heap}

/-- A request to a fresh heap is refused, or gets the first payload. -/
theorem fresh_malloc (hinit : equiv_malloc_init heap_start heap_size mem = some s)
    (hstart : 0 < heap_start) (hend : heap_start + heap_size < 2 ^ 32) (hsize : heap_size % 8 = 0)
    (n : ℕ) : (Unserved heap_size n ∧ equiv_malloc n s = .ok (0, s)) ∨
      ¬Unserved heap_size n ∧ ∃ t, equiv_malloc n s = .ok (get_payload_start heap_start, t) := by
  obtain ⟨hg, -⟩ := equiv_malloc_init_good hinit hstart hend hsize
  by_cases hcond : n = 0 ∨ MAX_REQUEST_SIZE < n
  · exact .inl ⟨hcond.imp_right .inl, equiv_malloc_refused s hcond⟩
  · obtain ⟨hn, hmax⟩ : 0 < n ∧ n ≤ MAX_REQUEST_SIZE := by omega
    rcases equiv_malloc_spec hg (List.cons_ne_nil _ _) hn hmax with
      ⟨hrun, hsmall⟩ | ⟨l, b, r, t, hbs, -, hfits, -, hrun, -⟩
    · rw [needed_eq hmax] at hsmall
      exact .inl ⟨.inr (.inr (hsmall _ List.mem_cons_self rfl)), hrun⟩
    · obtain rfl : b = ⟨heap_start, heap_size - metadata_size, true⟩ := by
        have hb : b ∈ l ++ b :: r := List.mem_append_right l List.mem_cons_self
        rw [← hbs] at hb
        exact List.mem_singleton.mp hb
      rw [needed_eq hmax] at hfits
      refine .inr ⟨?_, t, hrun⟩
      rintro (rfl | hlarge | hsmall)
      · exact hn.ne' rfl
      · exact hmax.not_gt hlarge
      · exact hfits.not_gt hsmall

/-- The same for every valid call: nothing is live yet. -/
theorem fresh_call (hinit : equiv_malloc_init heap_start heap_size mem = some s)
    (hstart : 0 < heap_start) (hend : heap_start + heap_size < 2 ^ 32) (hsize : heap_size % 8 = 0)
    {c : Call} (hvalid : c.Valid []) : (c.Unserved heap_size ∧ c.run s = .ok (0, s)) ∨
      ¬c.Unserved heap_size ∧ ∃ t, c.run s = .ok (get_payload_start heap_start, t) := by
  have hnull : ∀ p ∈ c.args, p = 0 := fun p hp => by
    by_contra hne
    exact absurd (hvalid p hp hne) List.not_mem_nil
  cases c with
  | malloc n => exact fresh_malloc hinit hstart hend hsize n
  | realloc old_ptr n =>
    obtain rfl := hnull old_ptr List.mem_cons_self
    have hrealloc : equiv_realloc 0 n s = equiv_malloc n s := if_pos rfl
    rw [Call.run, hrealloc]
    simpa [Call.Unserved] using fresh_malloc hinit hstart hend hsize n
  | free ptr =>
    obtain rfl := hnull ptr List.mem_cons_self
    exact .inl ⟨trivial, rfl⟩

/-- Only a session that is refused every request gets no misaligned pointer. -/
theorem payloads_aligned_iff (hinit : equiv_malloc_init heap_start heap_size mem = some s)
    (hstart : 0 < heap_start) (halign : heap_start % ALIGNMENT = 0)
    (hend : heap_start + heap_size < 2 ^ 32) (hsize : heap_size % 8 = 0) {es : List Event} {qs : List ℕ}
    {T : Session} (hrun : Session.Runs ⟨s, []⟩ es qs T) :
    (∀ q ∈ qs, q ≠ 0 → q % ALIGNMENT = 0) ↔ ∀ c, .call c ∈ es → c.Unserved heap_size := by
  induction es generalizing qs with
  | nil =>
    cases hrun
    simp
  | cons e es ih =>
    cases hrun with
    | write hvalid _ _ =>
      obtain ⟨e, he, -⟩ := hvalid
      exact absurd he List.not_mem_nil
    | @call _ _ c q t _ qs hvalid hq h =>
      rcases fresh_call hinit hstart hend hsize hvalid with ⟨hunserved, heq⟩ | ⟨hserved, u, heq⟩
      · cases hq.symm.trans heq
        have hlive : c.relive 0 [] = [] := by
          cases c <;> simp [Call.relive]
        rw [hlive] at h
        simp [ih h, hunserved]
      · cases hq.symm.trans heq
        have hodd : get_payload_start heap_start % ALIGNMENT ≠ 0 := by
          simp only [get_payload_start, metadata_size, ALIGNMENT] at halign ⊢
          omega
        refine iff_of_false (fun hall => ?_) fun hall => hserved (hall c List.mem_cons_self)
        exact hodd (hall _ List.mem_cons_self (payload_ne_zero _))

/-- A heap of 256 bytes serves no request for 300. -/
theorem payloads_aligned_iff_refused : ∃ s T, equiv_malloc_init 64 256 (fun _ => 0) = some s ∧
    Session.Runs ⟨s, []⟩ [.call (.malloc 300)] [0] T ∧ ∀ q ∈ [0], q ≠ 0 → q % ALIGNMENT = 0 := by
  obtain ⟨s, hinit⟩ := Option.isSome_iff_exists.mp
    (show (equiv_malloc_init 64 256 fun _ => 0).isSome by decide)
  have hunserved : Unserved 256 300 := .inr (.inr (by decide))
  rcases fresh_malloc hinit (by decide) (by decide) (by decide) 300 with ⟨-, hrun⟩ | ⟨hserved, -⟩
  · have hruns : Session.Runs ⟨s, []⟩ [.call (.malloc 300)] [0] ⟨s, []⟩ :=
      .call (fun p hp => absurd hp List.not_mem_nil) hrun .nil
    refine ⟨s, _, hinit, hruns, ?_⟩
    refine (payloads_aligned_iff hinit (by decide) (by decide) (by decide) (by decide) hruns).mpr ?_
    intro c hc
    cases List.mem_singleton.mp hc
    exact hunserved
  · exact absurd hunserved hserved

/-- The first pointer of a heap at address 64. -/
theorem first_payload_misaligned : ∃ s T, equiv_malloc_init 64 256 (fun _ => 0) = some s ∧
    64 % ALIGNMENT = 0 ∧ 256 % 8 = 0 ∧ Session.Runs ⟨s, []⟩ [.call (.malloc 16)] [68] T ∧
    ¬∀ q ∈ [68], q ≠ 0 → q % ALIGNMENT = 0 := by
  obtain ⟨s, hinit⟩ := Option.isSome_iff_exists.mp
    (show (equiv_malloc_init 64 256 fun _ => 0).isSome by decide)
  rcases fresh_malloc hinit (by decide) (by decide) (by decide) 16 with ⟨hunserved, -⟩ | ⟨-, t, hrun⟩
  · exact absurd hunserved (by decide)
  · exact ⟨s, _, hinit, by decide, by decide, .call (fun p hp => absurd hp List.not_mem_nil) hrun .nil,
      by decide⟩

end EquivChecker.Malloc
