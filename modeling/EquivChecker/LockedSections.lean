import EquivChecker.VibeLock
import EquivChecker.Fault

/-!
# Sections behind a vibe lock

Threads repeat accesses to memory between `secure_vibes` and `release_vibes`, as the functions of
`8-more_vibes.c` do. With two threads every run is a serial one: the sections might as well be done at
once, in the order in which the lock is given back.
-/

namespace EquivChecker.LockedSections

open VibeLock

universe u v

/-- The code between `secure_vibes` and `release_vibes`, one access to the memory `M` at a time. -/
structure Section (L : Type u) (M : Type v) where
  enter : L
  exec : L → M → L × M
  leaves : L → Bool

variable {L : Type u} {M : Type v} {n : ℕ}

/-- Accesses of a section that is not interrupted. -/
inductive Section.Steps (sec : Section L M) (m : M) : L → M → Prop where
  | start : Steps sec m sec.enter m
  | step {l m'} (h : Steps sec m l m') (hgoes : sec.leaves l = false) :
      Steps sec m (sec.exec l m').1 (sec.exec l m').2

/-- What the section does to the memory when it is not interrupted. -/
def Section.Runs (sec : Section L M) (m m' : M) : Prop := ∃ l, sec.Steps m l m' ∧ sec.leaves l = true

/-- Sections done one after another. -/
inductive Serial (sec : Fin n → Section L M) (m₀ : M) : List (Fin n) → M → Prop where
  | nil : Serial sec m₀ [] m₀
  | snoc {ts m t m'} (h : Serial sec m₀ ts m) (hruns : (sec t).Runs m m') : Serial sec m₀ (ts ++ [t]) m'

/-- The lock with the threads that use it, the memory, where the threads are in their sections, and the
threads that have ended sections, oldest first. -/
structure State (n : ℕ) (L : Type u) (M : Type v) where
  lock : VibeLock.State n
  mem : M
  locals : Fin n → L
  ended : List (Fin n)

/-- One step of a thread, which goes through its section again and again. -/
def step (sec : Fin n → Section L M) (s : State n L M) (t : Fin n) : State n L M :=
  if Inside s.lock t then
    if (sec t).leaves (s.locals t) then
      { s with
        lock := VibeLock.step s.lock (t, .leave)
        locals := Function.update s.locals t (sec t).enter
        ended := s.ended ++ [t] }
    else
      { s with
        mem := ((sec t).exec (s.locals t) s.mem).2
        locals := Function.update s.locals t ((sec t).exec (s.locals t) s.mem).1 }
  else { s with lock := VibeLock.step s.lock (t, .plain) }

def run (sec : Fin n → Section L M) (s : State n L M) (ts : List (Fin n)) : State n L M :=
  ts.foldl (step sec) s

/-- Before any thread has entered its section. -/
structure Initial (sec : Fin n → Section L M) (s : State n L M) : Prop where
  lock : VibeLock.Initial s.lock
  locals : ∀ i, s.locals i = (sec i).enter
  ended : s.ended = []

/-- The ended sections lead to `m`, where the memory is while nobody is inside, and from where the thread
inside has come. -/
structure Invariant (sec : Fin n → Section L M) (m₀ : M) (s : State n L M) : Prop where
  lock : VibeLock.Invariant s.lock
  outside : ∀ i, ¬Inside s.lock i → s.locals i = (sec i).enter
  serial : ∃ m, Serial sec m₀ s.ended m ∧ ((∀ i, ¬Inside s.lock i) → s.mem = m) ∧
    ∀ i, Inside s.lock i → (sec i).Steps m (s.locals i) s.mem

section Invariant
variable {sec : Fin n → Section L M} {m₀ : M} {s : State n L M} {t : Fin n}

theorem Initial.invariant (h : Initial sec s) : Invariant sec s.mem s := by
  have hout : ∀ i, ¬Inside s.lock i := by
    intro i hi
    rw [Inside, h.lock.fresh i] at hi
    cases hi
  refine ⟨h.lock.invariant, fun i _ => h.locals i, s.mem, ?_, fun _ => rfl, fun i hi => absurd hi (hout i)⟩
  rw [h.ended]
  exact .nil

theorem Invariant.lock_step (hn : n ≤ 2) (h : Invariant sec m₀ s) (c : Critical) (hc : c ≠ .ldrex) :
    VibeLock.Invariant (VibeLock.step s.lock (t, c)) :=
  h.lock.step (uncontended_of_le hn) fun hl => absurd hl hc

/-- The thread that enters finds nobody inside. -/
theorem Invariant.enter (hn : n ≤ 2) (h : Invariant sec m₀ s) (ht : ¬Inside s.lock t) :
    Invariant sec m₀ { s with lock := VibeLock.step s.lock (t, .plain) } := by
  have hlock := h.lock_step hn (t := t) .plain (by decide)
  have hbefore : ∀ i, Inside s.lock i → Inside (VibeLock.step s.lock (t, .plain)) i := by
    intro i hi
    have hit : i ≠ t := by
      rintro rfl
      exact ht hi
    exact (inside_step_of_ne hit).mpr hi
  obtain ⟨m, hserial, hquiet, hsteps⟩ := h.serial
  refine ⟨hlock, fun i hi => h.outside i fun hin => hi (hbefore i hin), m, hserial,
    fun hnone => hquiet fun i hi => hnone i (hbefore i hi), fun i hi => ?_⟩
  by_cases hit : i = t
  · subst hit
    have hempty : ∀ j, ¬Inside s.lock j := by
      intro j hj
      obtain rfl := hlock.inside (hbefore j hj) hi
      exact ht hj
    change (sec i).Steps m (s.locals i) s.mem
    rw [h.outside i ht, hquiet hempty]
    exact .start
  · exact hsteps i ((inside_step_of_ne hit).mp hi)

theorem Invariant.exec (h : Invariant sec m₀ s) (ht : Inside s.lock t)
    (hgoes : (sec t).leaves (s.locals t) = false) : Invariant sec m₀ { s with
      mem := ((sec t).exec (s.locals t) s.mem).2
      locals := Function.update s.locals t ((sec t).exec (s.locals t) s.mem).1 } := by
  obtain ⟨m, hserial, -, hsteps⟩ := h.serial
  refine ⟨h.lock, fun i hi => ?_, m, hserial, fun hnone => absurd ht (hnone t), fun i hi => ?_⟩
  · have hit : i ≠ t := by
      rintro rfl
      exact hi ht
    change Function.update s.locals t _ i = _
    rw [Function.update_of_ne hit]
    exact h.outside i hi
  · obtain rfl := h.lock.inside hi ht
    change (sec i).Steps m (Function.update s.locals i _ i) _
    rw [Function.update_self]
    exact (hsteps i ht).step hgoes

/-- The section that ends is done after those that have ended before. -/
theorem Invariant.leave (hn : n ≤ 2) (h : Invariant sec m₀ s) (ht : Inside s.lock t)
    (hleaves : (sec t).leaves (s.locals t) = true) : Invariant sec m₀ { s with
      lock := VibeLock.step s.lock (t, .leave)
      locals := Function.update s.locals t (sec t).enter
      ended := s.ended ++ [t] } := by
  have hnone : ∀ i, ¬Inside (VibeLock.step s.lock (t, .leave)) i := by
    intro i hi
    by_cases hit : i = t
    · subst hit
      exact not_inside_leave ht hi
    · exact hit (h.lock.inside ((inside_step_of_ne hit).mp hi) ht)
  obtain ⟨m, hserial, -, hsteps⟩ := h.serial
  refine ⟨h.lock_step hn .leave (by decide), fun i _ => ?_, s.mem,
    hserial.snoc ⟨s.locals t, hsteps t ht, hleaves⟩, fun _ => rfl, fun i hi => absurd hi (hnone i)⟩
  change Function.update s.locals t _ i = _
  by_cases hit : i = t
  · subst hit
    rw [Function.update_self]
  · rw [Function.update_of_ne hit]
    exact h.outside i fun hi => hit (h.lock.inside hi ht)

theorem Invariant.run (hn : n ≤ 2) (h : Invariant sec m₀ s) (ts : List (Fin n)) :
    Invariant sec m₀ (run sec s ts) := by
  induction ts generalizing s with
  | nil => exact h
  | cons t ts ih =>
    refine ih (?_ : Invariant sec m₀ (step sec s t))
    unfold step
    split_ifs with ht hleaves
    · exact h.leave hn ht hleaves
    · exact h.exec ht (Bool.not_eq_true _ ▸ hleaves)
    · exact h.enter hn ht

/-- With two threads the memory is what the ended sections make of it one after another. -/
theorem Initial.serial (hn : n ≤ 2) (h : Initial sec s) (ts : List (Fin n))
    (hnone : ∀ i, ¬Inside (LockedSections.run sec s ts).lock i) :
    Serial sec s.mem (LockedSections.run sec s ts).ended (LockedSections.run sec s ts).mem := by
  obtain ⟨m, hserial, hquiet, -⟩ := (h.invariant.run hn ts).serial
  rw [hquiet hnone]
  exact hserial

end Invariant

section Calls

/-- The words of memory. -/
abbrev Words := Word → Word

/-- Where a call is, and the word that it has loaded. -/
inductive Frame where
  | load
  | store (word : Word)
  | leave
  deriving DecidableEq, Repr

/-- `*dst = f(*src)` behind the lock. -/
def assign (src dst : Word) (f : Word → Word) : Section Frame Words where
  enter := .load
  exec
    | .load, m => (.store (m src), m)
    | .store word, m => (.leave, Function.update m dst (f word))
    | .leave, m => (.leave, m)
  leaves
    | .leave => true
    | _ => false

def non_intrinsic_atomic_increment (ptr : Word) : Section Frame Words := assign ptr ptr (· + 1)
def atomic_decrement (ptr : Word) : Section Frame Words := assign ptr ptr (· - 1)
def atomic_load (ptr result : Word) : Section Frame Words := assign ptr result id
def atomic_store (ptr val : Word) : Section Frame Words := assign val ptr id

theorem assign_runs_iff {src dst : Word} {f : Word → Word} {m m' : Words} :
    (assign src dst f).Runs m m' ↔ m' = Function.update m dst (f (m src)) := by
  constructor
  · rintro ⟨l, hsteps, hleaves⟩
    have hphase : ∀ l m', (assign src dst f).Steps m l m' → (l = .load ∧ m' = m) ∨
        (l = .store (m src) ∧ m' = m) ∨ l = .leave ∧ m' = Function.update m dst (f (m src)) := by
      intro l m' h
      induction h with
      | start => exact .inl ⟨rfl, rfl⟩
      | step _ hgoes ih =>
        rcases ih with ⟨rfl, rfl⟩ | ⟨rfl, rfl⟩ | ⟨rfl, rfl⟩
        · exact .inr (.inl ⟨rfl, rfl⟩)
        · exact .inr (.inr ⟨rfl, rfl⟩)
        · cases hgoes
    rcases hphase l m' hsteps with ⟨rfl, -⟩ | ⟨rfl, -⟩ | ⟨-, hm⟩
    · cases hleaves
    · cases hleaves
    · exact hm
  · rintro rfl
    exact ⟨.leave, .step (.step .start rfl) rfl, rfl⟩

/-- The functions of `8-more_vibes.c` that are called. -/
inductive Call where
  | non_intrinsic_atomic_increment (ptr : Word)
  | atomic_decrement (ptr : Word)
  | atomic_load (ptr result : Word)
  | atomic_store (ptr val : Word)
  deriving DecidableEq, Repr

def Call.code : Call → Section Frame Words
  | non_intrinsic_atomic_increment ptr => LockedSections.non_intrinsic_atomic_increment ptr
  | atomic_decrement ptr => LockedSections.atomic_decrement ptr
  | atomic_load ptr result => LockedSections.atomic_load ptr result
  | atomic_store ptr val => LockedSections.atomic_store ptr val

/-- What the call is for, all at once. -/
def Call.effect (m : Words) : Call → Words
  | non_intrinsic_atomic_increment ptr => Function.update m ptr (m ptr + 1)
  | atomic_decrement ptr => Function.update m ptr (m ptr - 1)
  | atomic_load ptr result => Function.update m result (m ptr)
  | atomic_store ptr val => Function.update m ptr (m val)

theorem Call.runs_iff {c : Call} {m m' : Words} : c.code.Runs m m' ↔ m' = c.effect m := by
  cases c <;> exact assign_runs_iff

theorem serial_eq {calls : Fin n → Call} {m₀ m : Words} {ts : List (Fin n)}
    (h : Serial (fun i => (calls i).code) m₀ ts m) : m = ts.foldl (fun m t => (calls t).effect m) m₀ := by
  induction h with
  | nil => rfl
  | snoc _ hruns ih =>
    rw [List.foldl_append, ← ih]
    exact Call.runs_iff.mp hruns

end Calls

section Overlap
variable {sec : Fin n → Section L M} {s : State n L M} {i j k : Fin n}

theorem run_append (ts us : List (Fin n)) : run sec s (ts ++ us) = run sec (run sec s ts) us :=
  List.foldl_append

/-- Of three threads, two can be inside at the start of their sections. -/
theorem run_overlap (sec : Fin n → Section L M) (hij : i ≠ j) (hik : i ≠ k) (hjk : j ≠ k)
    (hs : s.lock = idle n) :
    Inside (run sec s (overlap i j k)).lock i ∧ Inside (run sec s (overlap i j k)).lock j ∧
      (∀ x, x ≠ i → x ≠ j → ¬Inside (run sec s (overlap i j k)).lock x) ∧
      run sec s (overlap i j k) = { s with lock := (run sec s (overlap i j k)).lock } := by
  refine ⟨?_, ?_, fun x hi hj => ?_, ?_⟩
  on_goal 3 => by_cases hx : x = k
  all_goals
    simp [*, overlap, run, List.replicate, step, idle, Inside, VibeLock.step, Regs.exec,
      ExclusiveMonitor.Cell.strex, UNLOCKED, LOCKED, hij.symm, hik.symm, hjk.symm]

/-- Both threads inside load before either stores. -/
theorem run_both {sec : Fin n → Section Frame Words} {s : State n Frame Words} {ptr : Word}
    (hsec : ∀ x, sec x = assign ptr ptr (· + 1)) (hij : i ≠ j) (hi : Inside s.lock i) (hj : Inside s.lock j)
    (hlocals : ∀ x, s.locals x = .load) :
    (run sec s [i, j, i, j, i, j]).mem ptr = s.mem ptr + 1 ∧
      (run sec s [i, j, i, j, i, j]).ended = s.ended ++ [i, j] ∧
      ∀ x, Inside (run sec s [i, j, i, j, i, j]).lock x → Inside s.lock x ∧ x ≠ i ∧ x ≠ j := by
  refine ⟨?_, ?_, fun x hx => ?_⟩
  · simp [run, step, hsec, assign, hi, hj, hlocals, hij, hij.symm, inside_step_of_ne]
  · simp [run, step, hsec, assign, hi, hj, hlocals, hij, hij.symm, inside_step_of_ne]
  · have hend : Inside (VibeLock.step (VibeLock.step s.lock (i, .leave)) (j, .leave)) x := by
      simpa [run, step, hsec, assign, hi, hj, hlocals, hij, hij.symm, inside_step_of_ne] using hx
    have hxj : x ≠ j := by
      rintro rfl
      exact not_inside_leave ((inside_step_of_ne hij.symm).mpr hj) hend
    have hleft : Inside (VibeLock.step s.lock (i, .leave)) x := (inside_step_of_ne hxj).mp hend
    have hxi : x ≠ i := by
      rintro rfl
      exact not_inside_leave hi hleft
    exact ⟨(inside_step_of_ne hxi).mp hleft, hxi, hxj⟩

end Overlap

end EquivChecker.LockedSections
