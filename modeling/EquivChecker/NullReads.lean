import EquivChecker.ThreadPlaces

/-!
# Reads through the null pointer

`equiv_syscall_handler` looks at the verbosity of the next thread when there is none: at
the exit of the last thread, and at no other system call of a run.
-/

namespace EquivChecker.Checker

/-- The system-call handler reads or writes a field of a thread through a null pointer. -/
def NullAccess (s : Checker (List ℕ)) : Prop :=
  equiv_syscall_handler s = .error .nullDeref ∨
    ∃ r, equiv_syscall_handler s = .ok r ∧ r.state.nullReads ≠ s.nullReads

/-- The last thread exits, with a stack pointer in its stack. -/
def LastExit (s : Checker (List ℕ)) : Prop :=
  s.regs 0 = EQUIV_EXIT ∧ s.equiv_runq = [] ∧
    ∀ th, s.cur_thread = some th → check_sp ((save th s).threads th) = .ok ()

/-- A thread still runs, and nothing has been read through a null pointer. -/
structure Sound (s t : Checker (List ℕ)) : Prop where
  cur : s.cur_thread ≠ none → t.cur_thread ≠ none
  nullReads : t.nullReads = s.nullReads

variable {p : Platform} {s t v : Checker (List ℕ)} {r : Progress (Checker (List ℕ))} {fuel : ℕ}
  {touched : Finset Addr} {pc : Word} {w : Bool}

theorem Sound.refl (s : Checker (List ℕ)) : Sound s s := ⟨id, rfl⟩

theorem Sound.trans (h : Sound s t) (h' : Sound t v) : Sound s v :=
  ⟨fun hs => h'.cur (h.cur hs), h'.nullReads.trans h.nullReads⟩

theorem Handled.sound (h : Handled s t) : Sound s t := by
  cases h with
  | @unmarked th hcur _ => exact ⟨fun hs => (saved_cur_thread th s).symm ▸ hs, saved_nullReads th s⟩
  | @counted th _ _ hcur _ _ _ _ =>
    exact ⟨fun hs => (saved_cur_thread th s).symm ▸ hs, saved_nullReads th s⟩
  | @switched th _ _ _ next _ hcur _ _ _ _ _ _ =>
    exact ⟨fun _ => Option.some_ne_none next, saved_nullReads th s⟩

theorem prefetch_sound (h : prefetch s = .ok t) : Sound s t := by
  unfold prefetch at h
  split at h
  · cases h
    exact .refl s
  · obtain ⟨v, hv, h⟩ := bind_ok_iff.mp h
    cases h
    exact (equiv_hash_handler_iff.mp hv).sound.trans ⟨id, rfl⟩

theorem ctx_switch_handler_sound (h : ctx_switch_handler touched pc s = .ok t) : Sound s t := by
  unfold ctx_switch_handler at h
  split at h
  · cases h
    exact .refl s
  · split at h
    · cases h
      exact .refl s
    · split at h
      · cases h
      · split at h
        · cases h
          split <;> exact ⟨id, rfl⟩
        · cases h
          exact .refl s

theorem access_sound (h : access touched w s = .ok t) : Sound s t := by
  unfold access at h
  split at h
  · obtain ⟨v, hv, h⟩ := bind_ok_iff.mp h
    cases h
    unfold memory_touch_handler at hv
    split at hv
    · exact (ctx_switch_handler_sound hv).trans ⟨id, rfl⟩
    · cases hv
      exact ⟨id, rfl⟩
  · cases h
    exact .refl s

/-- A system call that does not panic reads through the null pointer when it ends the run. -/
theorem Trapped.nullReads (h : Trapped s r) :
    (∃ t, r = .running t ∧ Sound s t ∧ ¬LastExit s) ∨
      ∃ t, r = .finished t ∧ t.nullReads = s.nullReads + 1 ∧ LastExit s := by
  cases h with
  | putc_back _ _ hno _ _ =>
    exact .inl ⟨_, rfl, ⟨id, rfl⟩, fun hlast => absurd (hno.symm.trans hlast.1) (by decide)⟩
  | @putc_next _ next _ _ _ hno _ _ =>
    exact .inl ⟨_, rfl, ⟨fun _ => Option.some_ne_none next, rfl⟩,
      fun hlast => absurd (hno.symm.trans hlast.1) (by decide)⟩
  | @yield _ next _ _ _ hno _ =>
    exact .inl ⟨_, rfl, ⟨fun _ => Option.some_ne_none next, rfl⟩,
      fun hlast => absurd (hno.symm.trans hlast.1) (by decide)⟩
  | @exit_last th hcur hsp hno hq =>
    refine .inr ⟨_, rfl, rfl, hno, hq, fun x hx => ?_⟩
    cases hcur.symm.trans hx
    exact hsp
  | @exit_next _ next _ _ _ _ hq =>
    exact .inl ⟨_, rfl, ⟨fun _ => Option.some_ne_none next, rfl⟩,
      fun hlast => absurd (hq.symm.trans hlast.2.1) (List.cons_ne_nil _ _)⟩

theorem nullAccess_iff (hcur : s.cur_thread ≠ none) : NullAccess s ↔ LastExit s := by
  constructor
  · rintro (herror | ⟨r, hr, hreads⟩)
    · obtain ⟨msg, hmsg⟩ := equiv_syscall_handler_panics hcur herror
      cases hmsg
    · rcases (equiv_syscall_handler_iff.mp hr).nullReads with ⟨t, rfl, hsound, -⟩ | ⟨t, -, -, hlast⟩
      · exact absurd hsound.nullReads hreads
      · exact hlast
  · rintro ⟨hno, hq, hsp⟩
    obtain ⟨th, hcur⟩ := Option.ne_none_iff_exists'.mp hcur
    exact .inr ⟨_, equiv_syscall_handler_iff.mpr (.exit_last hcur (hsp th hcur) hno hq), Nat.succ_ne_self _⟩

theorem step_nullReads (h : step p s = .ok r) :
    (∃ t, r = .running t ∧ Sound s t) ∨ ∃ t, r = .finished t ∧ t.nullReads = s.nullReads + 1 := by
  unfold step at h
  obtain ⟨v, hv, h⟩ := bind_ok_iff.mp h
  have hsound := prefetch_sound hv
  split at h
  · obtain ⟨t, ht, h⟩ := bind_ok_iff.mp h
    cases h
    exact .inl ⟨_, rfl, (hsound.trans (access_sound ht)).trans ⟨id, rfl⟩⟩
  · rename_i regs _
    rcases (equiv_syscall_handler_iff.mp h).nullReads with ⟨t, rfl, ht, -⟩ | ⟨t, rfl, ht, -⟩
    · exact .inl ⟨t, rfl, hsound.trans ⟨ht.cur, ht.nullReads⟩⟩
    · exact .inr ⟨t, rfl, by rw [ht, ← hsound.nullReads]⟩

theorem steps_nullReads (h : steps p fuel s = .ok r) :
    (∃ t, r = .running t ∧ Sound s t) ∨ ∃ t, r = .finished t ∧ t.nullReads = s.nullReads + 1 := by
  have hP : ∀ v w, Sound s v → step p v = .ok (.running w) → Sound s w := by
    intro v w hv hw
    rcases step_nullReads hw with ⟨t, heq, ht⟩ | ⟨t, heq, -⟩
    · cases heq
      exact hv.trans ht
    · cases heq
  rcases steps_invariant hP (.refl s) h with hrunning | ⟨v, t, rfl, hv, hlast⟩
  · exact .inl hrunning
  · rcases step_nullReads hlast with ⟨t', heq, -⟩ | ⟨t', heq, ht⟩
    · cases heq
    · cases heq
      exact .inr ⟨t, rfl, by rw [ht, hv.nullReads]⟩

theorem equiv_run_start_sound (h : equiv_run_start s = .ok t) :
    t.cur_thread ≠ none ∧ t.nullReads = s.nullReads := by
  unfold equiv_run_start at h
  split at h
  · split at h
    · cases h
    · rename_i th q _
      cases h
      exact ⟨Option.some_ne_none th, rfl⟩
  · obtain ⟨tid, -, h⟩ := bind_ok_iff.mp h
    obtain ⟨⟨th, v⟩, hv, h⟩ := bind_ok_iff.mp h
    obtain ⟨q, rfl, -, -⟩ := retrieve_tid_from_queue_spec hv
    cases h
    exact ⟨Option.some_ne_none th, rfl⟩

/-- In every run the system-call handler reads through the null pointer at the exit of the
last thread and nowhere else: a run is free of such reads if and only if it has not ended. -/
theorem nullReads_iff (p : Platform) (s : Checker (List ℕ)) (fuel : ℕ)
    (r : Progress (Checker (List ℕ))) (h : equiv_run p fuel s = .ok r) :
    (r.state.nullReads = s.nullReads ↔ ∃ t, r = .running t) ∧
      ∀ t v, r = .running t → prefetch t = .ok v → ∀ regs,
        NullAccess { v with regs } ↔ LastExit { v with regs } := by
  obtain ⟨s₀, hstart, hsteps⟩ := bind_ok_iff.mp h
  obtain ⟨hcur, hreads⟩ := equiv_run_start_sound hstart
  rcases steps_nullReads hsteps with ⟨t, rfl, ht⟩ | ⟨t, rfl, ht⟩
  · refine ⟨⟨fun _ => ⟨t, rfl⟩, fun _ => ht.nullReads.trans hreads⟩, ?_⟩
    intro t' v ht' hv regs
    cases ht'
    exact nullAccess_iff ((prefetch_sound hv).cur (ht.cur hcur))
  · refine ⟨⟨fun heq => ?_, fun ⟨_, hrun⟩ => (nomatch hrun)⟩, fun _ _ hrun => (nomatch hrun)⟩
    rw [Progress.state_finished, ht, hreads] at heq
    exact absurd heq (Nat.succ_ne_self _)

/-- A thread that exits at once. -/
def exiting : Platform where
  fetch regs _ := .swi (Function.update regs 0 EQUIV_EXIT)
  user_cpsr := 16
  sys_equiv_exit := 0x8000
  kmalloc_aligned _ := 0x100000

/-- The queue holds one thread. -/
def single : Checker (List ℕ) :=
  { twoThreads with equiv_runq := [0], schedule := none, shared_memory := none }

/-- The run of the single thread ends after a read through the null pointer. -/
theorem single_nullRead : ∃ t, equiv_run exiting 1 single = .ok (.finished t) ∧
    t.nullReads = single.nullReads + 1 ∧ single.equiv_runq = [0] := by
  have hend : ((equiv_run exiting 1 single).toOption.bind Progress.finished?).map Checker.nullReads =
      some (single.nullReads + 1) := by
    decide +kernel
  obtain ⟨t, hrun, hreads⟩ := Option.map_eq_some_iff.mp hend
  exact ⟨t, Progress.eq_finished hrun, hreads, rfl⟩

/-- Two threads: the exit of the first one is a system call without a read through the null pointer. -/
theorem nullReads_iff_pair : ∃ t, equiv_run exiting 1 { single with equiv_runq := [0, 1] } = .ok (.running t) ∧
    t.cur_thread = some 1 ∧ t.nullReads = single.nullReads := by
  have hend : ((equiv_run exiting 1 { single with equiv_runq := [0, 1] }).toOption.bind
      Progress.running?).map Checker.cur_thread = some (some 1) := by
    decide +kernel
  obtain ⟨t, hrun, hcur⟩ := Option.map_eq_some_iff.mp hend
  have hrun := Progress.eq_running hrun
  exact ⟨t, hrun, hcur, (nullReads_iff exiting _ 1 _ hrun).1.mpr ⟨t, rfl⟩⟩

end EquivChecker.Checker
