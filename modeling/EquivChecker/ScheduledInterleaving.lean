import EquivChecker.Interleaving

/-!
# Interleavings that a schedule prescribes

The threads that are not running wait in a queue. A schedule lists how many instructions that touch
shared cells the running thread executes before which thread is taken out of the queue instead. It is
dropped at the first exit, and then the threads run to their exits in the order of the queue.

A schedule prescribes one interleaving at most. For two threads, every reduced interleaving is the one
that some schedule prescribes.
-/

namespace EquivChecker.Interleaving

universe u

variable {T R A B : Type u} [DecidableEq T]

/-- The interleaving runs `i` and the threads in the queue as the rest of a schedule says, with `n`
switches of the schedule. -/
inductive Obeys (M : Machine R A B) (shared : Set A) :
    List T → T → List (ℕ × T) → Config T R A B → List T → ℕ → Prop where
  | last {i plan s} (hexit : (event M s i).exits = true) : Obeys M shared [] i plan s [i] 0
  | exit {q i j plan s σ n} (hexit : (event M s i).exits = true)
      (h : Obeys M shared q j [] (step M s i) σ n) : Obeys M shared (j :: q) i plan s (i :: σ) n
  | quiet {q i plan s σ n} (hgoes : (event M s i).exits = false)
      (hquiet : plan = [] ∨ ¬((event M s i).touched ∩ shared).Nonempty)
      (h : Obeys M shared q i plan (step M s i) σ n) : Obeys M shared q i plan s (i :: σ) n
  | touch {q i j c plan s σ n} (hgoes : (event M s i).exits = false)
      (htouch : ((event M s i).touched ∩ shared).Nonempty) (hc : 0 < c)
      (h : Obeys M shared q i ((c, j) :: plan) (step M s i) σ n) :
      Obeys M shared q i ((c + 1, j) :: plan) s (i :: σ) n
  | switch {q l r i j plan s σ n} (hgoes : (event M s i).exits = false)
      (htouch : ((event M s i).touched ∩ shared).Nonempty) (hq : q = l ++ j :: r) (hj : j ∉ l)
      (h : Obeys M shared (r ++ l ++ [i]) j plan (step M s i) σ n) :
      Obeys M shared q i ((1, j) :: plan) s (i :: σ) (n + 1)

/-- The threads that have not exited. -/
def Alive (M : Machine R A B) (s : Config T R A B) (ths : List T) : Prop :=
  ∀ x, M.exited (s.regs x) = false ↔ x ∈ ths

variable {M : Machine R A B} {shared : Set A} {s : Config T R A B} {q l r : List T} {i j : T}
  {plan : List (ℕ × T)} {σ τ : List T} {n m : ℕ}

omit [DecidableEq T] in
theorem Alive.perm {ths ths' : List T} (h : Alive M s ths) (hp : ths.Perm ths') : Alive M s ths' :=
  fun x => (h x).trans hp.mem_iff

theorem Alive.step (h : Alive M s (i :: q)) (hgoes : (event M s i).exits = false) :
    Alive M (step M s i) (i :: q) := by
  intro x
  by_cases hx : x = i
  · subst hx
    rw [step_regs_self]
    exact iff_of_true hgoes List.mem_cons_self
  · rw [step_regs_of_ne M s hx]
    exact h x

theorem Alive.exit (h : Alive M s (i :: q)) (hi : i ∉ q) (hexit : (event M s i).exits = true) :
    Alive M (Interleaving.step M s i) q := by
  intro x
  by_cases hx : x = i
  · subst hx
    rw [step_regs_self]
    exact iff_of_false (fun hgoes => by cases hexit.symm.trans hgoes) hi
  · rw [step_regs_of_ne M s hx, h x, List.mem_cons, or_iff_right hx]

theorem nodup_switch (hnodup : (i :: (l ++ j :: r)).Nodup) :
    (j :: (r ++ l ++ [i])).Perm (i :: (l ++ j :: r)) ∧ (j :: (r ++ l ++ [i])).Nodup := by
  have hperm : (j :: (r ++ l ++ [i])).Perm (i :: (l ++ j :: r)) := by
    refine List.perm_iff_count.mpr fun a => ?_
    simp only [List.count_cons, List.count_append, List.count_nil]
    omega
  exact ⟨hperm, hperm.nodup_iff.mpr hnodup⟩

omit [DecidableEq T] in
theorem split_unique {l l' r r' : List T} (hj : j ∉ l) (hj' : j ∉ l') (h : l ++ j :: r = l' ++ j :: r') :
    l = l' ∧ r = r' := by
  induction l generalizing l' with
  | nil =>
    cases l' with
    | nil => exact ⟨rfl, (List.cons.inj h).2⟩
    | cons x l' =>
      obtain ⟨rfl, -⟩ := List.cons.inj h
      exact absurd List.mem_cons_self hj'
  | cons x l ih =>
    cases l' with
    | nil =>
      obtain ⟨rfl, -⟩ := List.cons.inj h
      exact absurd List.mem_cons_self hj
    | cons y l' =>
      obtain ⟨rfl, htail⟩ := List.cons.inj h
      obtain ⟨rfl, rfl⟩ := ih (List.not_mem_of_not_mem_cons hj) (List.not_mem_of_not_mem_cons hj') htail
      exact ⟨rfl, rfl⟩

/-- It runs every thread to its exit. -/
theorem Obeys.complete (h : Obeys M shared q i plan s σ n) (hnodup : (i :: q).Nodup)
    (halive : Alive M s (i :: q)) : Complete M s σ := by
  induction h with
  | @last i plan s hexit =>
    refine ⟨⟨(halive i).mpr List.mem_cons_self, trivial⟩, fun x => ?_⟩
    have hdead := halive.exit List.not_mem_nil hexit x
    rw [← Bool.not_eq_false, run_cons, run_nil, hdead]
    exact List.not_mem_nil
  | @exit q i j plan s σ n hexit _ ih =>
    obtain ⟨hi, hrest⟩ := List.nodup_cons.mp hnodup
    obtain ⟨hvalid, hend⟩ := ih hrest (halive.exit hi hexit)
    exact ⟨⟨(halive i).mpr List.mem_cons_self, hvalid⟩, hend⟩
  | @quiet q i plan s σ n hgoes hquiet _ ih =>
    obtain ⟨hvalid, hend⟩ := ih hnodup (halive.step hgoes)
    exact ⟨⟨(halive i).mpr List.mem_cons_self, hvalid⟩, hend⟩
  | @touch q i j c plan s σ n hgoes htouch hc _ ih =>
    obtain ⟨hvalid, hend⟩ := ih hnodup (halive.step hgoes)
    exact ⟨⟨(halive i).mpr List.mem_cons_self, hvalid⟩, hend⟩
  | @switch q l r i j plan s σ n hgoes htouch hq hj _ ih =>
    subst hq
    obtain ⟨hperm, hnodup'⟩ := nodup_switch hnodup
    obtain ⟨hvalid, hend⟩ := ih hnodup' ((halive.step hgoes).perm hperm.symm)
    exact ⟨⟨(halive i).mpr List.mem_cons_self, hvalid⟩, hend⟩

theorem Obeys.head (h : Obeys M shared q i plan s σ n) : σ.head? = some i := by
  cases h <;> rfl

/-- Threads are left only after they have touched a shared cell, or when they exit. -/
theorem Obeys.reduced (h : Obeys M shared q i plan s σ n) : Reduced shared (trace M s σ) := by
  induction h with
  | last hexit => exact .singleton _
  | exit hexit _ ih => exact reduced_trace_cons M ih fun _ => .inr hexit
  | quiet hgoes hquiet h ih => exact reduced_trace_cons M ih fun hne => absurd h.head hne
  | touch hgoes htouch hc h ih => exact reduced_trace_cons M ih fun hne => absurd h.head hne
  | switch hgoes htouch hq hj h ih => exact reduced_trace_cons M ih fun _ => .inl htouch

/-- Every switch of the schedule is a preemption, and there are no others. -/
theorem Obeys.preemptions (h : Obeys M shared q i plan s σ n) (hnodup : (i :: q).Nodup) :
    preemptions (trace M s σ) = n := by
  induction h with
  | last hexit => rfl
  | @exit q i j plan s σ n hexit h ih =>
    obtain ⟨hi, hrest⟩ := List.nodup_cons.mp hnodup
    have hleaving : leaving (event M s i) σ = 0 := by
      rw [leaving, h.head]
      exact if_neg fun hne => by cases hexit.symm.trans hne.2
    rw [preemptions_trace_cons, hleaving, ih hrest, Nat.zero_add]
  | @quiet q i plan s σ n hgoes hquiet h ih =>
    have hleaving : leaving (event M s i) σ = 0 := by
      rw [leaving, h.head]
      exact if_neg fun hne => hne.1 rfl
    rw [preemptions_trace_cons, hleaving, ih hnodup, Nat.zero_add]
  | @touch q i j c plan s σ n hgoes htouch hc h ih =>
    have hleaving : leaving (event M s i) σ = 0 := by
      rw [leaving, h.head]
      exact if_neg fun hne => hne.1 rfl
    rw [preemptions_trace_cons, hleaving, ih hnodup, Nat.zero_add]
  | @switch q l r i j plan s σ n hgoes htouch hq hj h ih =>
    subst hq
    have hij : i ≠ j := by
      rintro rfl
      exact (List.nodup_cons.mp hnodup).1 (List.mem_append_right l List.mem_cons_self)
    have hleaving : leaving (event M s i) σ = 1 := by
      rw [leaving, h.head]
      exact if_pos ⟨hij, hgoes⟩
    rw [preemptions_trace_cons, hleaving, ih (nodup_switch hnodup).2, Nat.add_comm]

/-- A schedule prescribes one interleaving at most. -/
theorem Obeys.unique (h : Obeys M shared q i plan s σ n) (h' : Obeys M shared q i plan s τ m) :
    σ = τ ∧ n = m := by
  induction h generalizing τ m with
  | last hexit =>
    cases h' with
    | last => exact ⟨rfl, rfl⟩
    | quiet hgoes => cases hexit.symm.trans hgoes
    | touch hgoes => cases hexit.symm.trans hgoes
    | switch hgoes => cases hexit.symm.trans hgoes
  | exit hexit _ ih =>
    cases h' with
    | exit _ h' =>
      obtain ⟨rfl, rfl⟩ := ih h'
      exact ⟨rfl, rfl⟩
    | quiet hgoes => cases hexit.symm.trans hgoes
    | touch hgoes => cases hexit.symm.trans hgoes
    | switch hgoes => cases hexit.symm.trans hgoes
  | quiet hgoes hquiet _ ih =>
    cases h' with
    | last hexit => cases hexit.symm.trans hgoes
    | exit hexit => cases hexit.symm.trans hgoes
    | quiet _ _ h' =>
      obtain ⟨rfl, rfl⟩ := ih h'
      exact ⟨rfl, rfl⟩
    | touch _ htouch => exact absurd htouch (hquiet.resolve_left (List.cons_ne_nil _ _))
    | switch _ htouch => exact absurd htouch (hquiet.resolve_left (List.cons_ne_nil _ _))
  | touch hgoes htouch hc _ ih =>
    cases h' with
    | last hexit => cases hexit.symm.trans hgoes
    | exit hexit => cases hexit.symm.trans hgoes
    | quiet _ hquiet => exact absurd htouch (hquiet.resolve_left (List.cons_ne_nil _ _))
    | touch _ _ _ h' =>
      obtain ⟨rfl, rfl⟩ := ih h'
      exact ⟨rfl, rfl⟩
    | switch => cases hc
  | @switch q l r i j plan s σ n hgoes htouch hq hj _ ih =>
    cases h' with
    | last hexit => cases hexit.symm.trans hgoes
    | exit hexit => cases hexit.symm.trans hgoes
    | quiet _ hquiet => exact absurd htouch (hquiet.resolve_left (List.cons_ne_nil _ _))
    | touch _ _ hc => cases hc
    | switch _ _ hq' hj' h' =>
      obtain ⟨rfl, rfl⟩ := split_unique hj hj' (hq.symm.trans hq')
      obtain ⟨rfl, rfl⟩ := ih h'
      exact ⟨rfl, rfl⟩

/-- Without preemptions the threads run to their exits one after another, in some order. -/
theorem exists_queue (hσ : Complete M s (i :: σ)) (halive : Alive M s (i :: q)) (hnodup : (i :: q).Nodup)
    (hpre : Interleaving.preemptions (trace M s (i :: σ)) = 0) :
    ∃ q', q'.Perm q ∧ Obeys M shared q' i [] s (i :: σ) 0 := by
  obtain ⟨hi, hrest⟩ := List.nodup_cons.mp hnodup
  induction σ generalizing s i q with
  | nil =>
    have hexit : (event M s i).exits = true := by
      have hend := hσ.2 i
      rwa [run_cons, run_nil, step_regs_self] at hend
    have hq : q = [] := by
      refine List.eq_nil_iff_forall_not_mem.mpr fun x hx => ?_
      have hgoes := (halive.exit hi hexit x).mpr hx
      cases hgoes.symm.trans (hσ.2 x)
    exact ⟨[], hq ▸ List.Perm.refl _, .last hexit⟩
  | cons k σ ih =>
    have hσ' : Complete M (step M s i) (k :: σ) := ⟨hσ.1.2, hσ.2⟩
    rw [preemptions_trace_cons] at hpre
    obtain ⟨hleaving, hpre'⟩ := Nat.add_eq_zero_iff.mp hpre
    cases hexit : (event M s i).exits with
    | false =>
      have hk : i = k := by
        by_contra hne
        have hone : leaving (event M s i) (k :: σ) = 1 := if_pos ⟨hne, hexit⟩
        cases hone.symm.trans hleaving
      subst hk
      obtain ⟨q', hperm, hobeys⟩ := ih hσ' (halive.step hexit) hnodup hpre' hi hrest
      exact ⟨q', hperm, .quiet hexit (.inl rfl) hobeys⟩
    | true =>
      have halive' := halive.exit hi hexit
      obtain ⟨l, r, rfl⟩ := List.append_of_mem ((halive' k).mp hσ'.1.1)
      have hmiddle : (l ++ k :: r).Perm (k :: (l ++ r)) := List.perm_middle
      have hnodup' := hmiddle.nodup_iff.mp hrest
      obtain ⟨hk, hlr⟩ := List.nodup_cons.mp hnodup'
      obtain ⟨q', hperm, hobeys⟩ := ih hσ' (halive'.perm hmiddle) hnodup' hpre' hk hlr
      exact ⟨k :: q', (hperm.cons k).trans hmiddle.symm, .exit hexit hobeys⟩

/-- Each switch of the schedule is to another one of the threads, after at least one touch. -/
inductive Hops (ths : List T) : T → List (ℕ × T) → Prop where
  | nil {x} : Hops ths x []
  | cons {x y c rest} (hc : 0 < c) (hne : y ≠ x) (hy : y ∈ ths) (h : Hops ths y rest) :
      Hops ths x ((c, y) :: rest)

omit [DecidableEq T] in
theorem Hops.mono {ths ths' : List T} (h : Hops ths i plan) (hsub : ∀ x ∈ ths, x ∈ ths') :
    Hops ths' i plan := by
  induction h with
  | nil => exact .nil
  | cons hc hne hy _ ih => exact .cons hc hne (hsub _ hy) ih

/-- A touch that the thread goes on after. -/
theorem Hops.touch {ths : List T} (h : Hops ths i plan) (hgoes : (event M s i).exits = false)
    (htouch : ((event M s i).touched ∩ shared).Nonempty)
    (hobeys : Obeys M shared q i plan (step M s i) σ n) : ∃ plan', Hops ths i plan' ∧
      plan'.length = plan.length ∧ Obeys M shared q i plan' s (i :: σ) n := by
  cases h with
  | nil => exact ⟨[], .nil, rfl, .quiet hgoes (.inl rfl) hobeys⟩
  | @cons _ j c rest hc hne hj h =>
    exact ⟨(c + 1, j) :: rest, .cons (Nat.succ_pos c) hne hj h, rfl, .touch hgoes htouch hc hobeys⟩

/-- What every instruction keeps. -/
theorem run_invariant {P : Config T R A B → Prop}
    (hstep : ∀ s i, P s → M.exited (s.regs i) = false → P (step M s i)) (hs : P s) (hσ : Valid M s σ) :
    P (run M s σ) := by
  induction σ generalizing s with
  | nil => exact hs
  | cons i σ ih => exact ih (hstep s i hs hσ.1) hσ.2

/-- No interleaving goes on forever. -/
inductive Halting (M : Machine R A B) : Config T R A B → Prop where
  | intro (s : Config T R A B) (h : ∀ i, M.exited (s.regs i) = false → Halting M (step M s i)) : Halting M s

theorem Halting.step (h : Halting M s) (hi : M.exited (s.regs i) = false) :
    Halting M (Interleaving.step M s i) := by
  cases h with
  | intro _ hstep => exact hstep i hi

/-- It is enough that a measure decreases with every instruction. -/
theorem halting_of_measure {P : Config T R A B → Prop} (μ : Config T R A B → ℕ)
    (hstep : ∀ s i, P s → M.exited (s.regs i) = false → P (step M s i) ∧ μ (step M s i) < μ s)
    (hs : P s) : Halting M s := by
  induction hn : μ s using Nat.strongRecOn generalizing s with
  | ind n ih =>
    refine .intro s fun i hi => ?_
    obtain ⟨hP, hlt⟩ := hstep s i hs hi
    exact ih _ (hn ▸ hlt) hP rfl

end EquivChecker.Interleaving
