import EquivChecker.Interleaver

/-!
# What one instruction can do to the checker

An instruction of the current thread changes only saved registers of threads that
are queued or running, and either leaves the context switch count as it is or makes
the next switch of the schedule.
-/

namespace EquivChecker

def Progress.state {α : Type} : Progress α → α
  | .running s => s
  | .finished s => s

@[simp] theorem Progress.state_running {α : Type} (s : α) : (Progress.running s).state = s := rfl
@[simp] theorem Progress.state_finished {α : Type} (s : α) : (Progress.finished s).state = s := rfl

/-- A thread without its saved registers. -/
def EqTh.frame (t : EqTh) : EqTh := { t with regs := fun _ => 0 }

namespace Checker

/-- A thread that is neither queued nor running. -/
def Idle (th : ℕ) (s : Checker (List ℕ)) : Prop :=
  th ∉ s.equiv_runq ∧ s.cur_thread ≠ some th

structure Keeps (s t : Checker (List ℕ)) : Prop where
  frame : ∀ th, (t.threads th).frame = (s.threads th).frame
  allocated : t.allocated = s.allocated
  idle : ∀ th, s.Idle th → t.Idle th ∧ t.threads th = s.threads th
  schedule : t.schedule = none ∨ t.schedule = s.schedule

/-- The switch counters are as before. -/
structure Stays (s t : Checker (List ℕ)) : Prop where
  ctx_switch : t.ctx_switch_status.ctx_switch = s.ctx_switch_status.ctx_switch
  instr_count : t.ctx_switch_status.instr_count = s.ctx_switch_status.instr_count

/-- A shared access is counted, or the next switch of the schedule is made. -/
inductive Counts (s t : Checker (List ℕ)) : Prop where
  | stay (ctx_switch : t.ctx_switch_status.ctx_switch = s.ctx_switch_status.ctx_switch)
      (instr_count : t.ctx_switch_status.instr_count ≤ s.ctx_switch_status.instr_count + 1)
  | switch (schedule : Schedule) (count : ℕ) (hschedule : s.schedule = some schedule)
      (hcount : schedule.instr_counts[s.ctx_switch_status.ctx_switch]? = some count)
      (reached : count ≤ s.ctx_switch_status.instr_count + 1)
      (ctx_switch : t.ctx_switch_status.ctx_switch = s.ctx_switch_status.ctx_switch + 1)
      (instr_count : t.ctx_switch_status.instr_count = 0)

variable {s t v : Checker (List ℕ)}

theorem Keeps.refl (s : Checker (List ℕ)) : Keeps s s :=
  ⟨fun _ => rfl, rfl, fun _ h => ⟨h, rfl⟩, .inr rfl⟩

theorem Keeps.trans (h : Keeps s t) (h' : Keeps t v) : Keeps s v where
  frame th := (h'.frame th).trans (h.frame th)
  allocated := h'.allocated.trans h.allocated
  idle th hs := by
    obtain ⟨ht, heq⟩ := h.idle th hs
    obtain ⟨hv, heq'⟩ := h'.idle th ht
    exact ⟨hv, heq'.trans heq⟩
  schedule := by
    rcases h'.schedule with hn | heq
    · exact .inl hn
    · rw [heq]
      exact h.schedule

theorem Stays.trans (h : Stays s t) (h' : Stays t v) : Stays s v :=
  ⟨h'.ctx_switch.trans h.ctx_switch, h'.instr_count.trans h.instr_count⟩

theorem Counts.trans (h : Counts s t) (h' : Stays t v) : Counts s v := by
  cases h with
  | stay hc hi => exact .stay (h'.ctx_switch.trans hc) (by rw [h'.instr_count]; exact hi)
  | switch σ count hσ hcount hr hc hi =>
    exact .switch σ count hσ hcount hr (h'.ctx_switch.trans hc) (h'.instr_count.trans hi)

theorem cur_ok_iff {th : ℕ} : s.cur = .ok th ↔ s.cur_thread = some th := by
  unfold cur
  cases s.cur_thread <;> simp

theorem readAt_ok_iff {l : List ℕ} {i n : ℕ} : readAt l i = .ok n ↔ l[i]? = some n := by
  unfold readAt
  cases l[i]? <;> simp

/-- Saving the registers of the running thread. -/
def save (th : ℕ) (s : Checker (List ℕ)) : Checker (List ℕ) :=
  s.setThread th { s.threads th with regs := s.regs }

theorem keeps_save {th : ℕ} (hcur : s.cur_thread = some th) : Keeps s (save th s) where
  frame x := by
    by_cases hx : x = th
    · subst hx
      simp [save, setThread, EqTh.frame]
    · simp [save, setThread, hx]
  allocated := rfl
  idle x hx := by
    have hne : x ≠ th := by
      rintro rfl
      exact hx.2 hcur
    exact ⟨hx, by simp [save, setThread, hne]⟩
  schedule := .inr rfl

theorem retrieveLoop_spec (threads : ℕ → EqTh) (tid first_tid : ℕ) (fuel th : ℕ) (q : List ℕ)
    {th' : ℕ} {q' : List ℕ} (h : retrieveLoop threads tid first_tid fuel th q = .ok (th', q')) :
    th' ∈ th :: q ∧ ∀ x ∈ q', x ∈ th :: q := by
  induction fuel generalizing th q with
  | zero =>
    unfold retrieveLoop at h
    split at h
    · simp only [Except.ok.injEq, Prod.mk.injEq] at h
      obtain ⟨rfl, rfl⟩ := h
      exact ⟨List.mem_cons_self, fun x hx => List.mem_cons_of_mem _ hx⟩
    · cases h
  | succ fuel ih =>
    unfold retrieveLoop at h
    split at h
    · simp only [Except.ok.injEq, Prod.mk.injEq] at h
      obtain ⟨rfl, rfl⟩ := h
      exact ⟨List.mem_cons_self, fun x hx => List.mem_cons_of_mem _ hx⟩
    · cases q with
      | nil => cases h
      | cons e q =>
        simp only [RunQueue.list_pop, List.head?_cons, List.tail_cons, RunQueue.list_append] at h
        split at h
        · cases h
        · obtain ⟨hth, hq⟩ := ih e (q ++ [th]) h
          constructor
          · simp only [List.mem_cons, List.mem_append, List.not_mem_nil, or_false] at hth ⊢
            tauto
          · intro x hx
            have hx' := hq x hx
            simp only [List.mem_cons, List.mem_append, List.not_mem_nil, or_false] at hx' ⊢
            tauto

/-- The retrieved thread and the remaining queue come from the queue. -/
theorem retrieve_tid_from_queue_spec {tid th : ℕ} (h : retrieve_tid_from_queue tid s = .ok (th, t)) :
    ∃ q, t = { s with equiv_runq := q } ∧ th ∈ s.equiv_runq ∧ ∀ x ∈ q, x ∈ s.equiv_runq := by
  unfold retrieve_tid_from_queue at h
  cases hq : s.equiv_runq with
  | nil => simp [hq] at h
  | cons e q =>
    simp only [hq, RunQueue.list_pop, List.head?_cons, List.tail_cons] at h
    obtain ⟨⟨x, q'⟩, hloop, heq⟩ := bind_ok_iff.mp h
    obtain ⟨hx, hq'⟩ := retrieveLoop_spec _ _ _ _ _ _ hloop
    simp only [Except.ok.injEq, Prod.mk.injEq] at heq
    obtain ⟨rfl, rfl⟩ := heq
    exact ⟨q', rfl, hx, hq'⟩

theorem Keeps.of_threads (hthreads : t.threads = s.threads) (hallocated : t.allocated = s.allocated)
    (hschedule : t.schedule = none ∨ t.schedule = s.schedule)
    (hrunq : ∀ x ∈ t.equiv_runq, x ∈ s.equiv_runq ∨ s.cur_thread = some x)
    (hcur : ∀ x, t.cur_thread = some x → x ∈ s.equiv_runq ∨ s.cur_thread = some x) : Keeps s t where
  frame _ := by rw [hthreads]
  allocated := hallocated
  idle x hx := by
    refine ⟨⟨fun hm => ?_, fun hc => ?_⟩, by rw [hthreads]⟩
    · exact (hrunq x hm).elim hx.1 hx.2
    · exact (hcur x hc).elim hx.1 hx.2
  schedule := hschedule

@[simp] theorem rw_tracker_arm_regs (s : Checker (List ℕ)) : s.rw_tracker_arm.regs = s.regs := by
  unfold rw_tracker_arm
  split <;> rfl

@[simp] theorem rw_tracker_arm_threads (s : Checker (List ℕ)) :
    s.rw_tracker_arm.threads = s.threads := by
  unfold rw_tracker_arm
  split <;> rfl

@[simp] theorem rw_tracker_arm_cur_thread (s : Checker (List ℕ)) :
    s.rw_tracker_arm.cur_thread = s.cur_thread := by
  unfold rw_tracker_arm
  split <;> rfl

@[simp] theorem rw_tracker_arm_equiv_runq (s : Checker (List ℕ)) :
    s.rw_tracker_arm.equiv_runq = s.equiv_runq := by
  unfold rw_tracker_arm
  split <;> rfl

@[simp] theorem rw_tracker_arm_schedule (s : Checker (List ℕ)) :
    s.rw_tracker_arm.schedule = s.schedule := by
  unfold rw_tracker_arm
  split <;> rfl

@[simp] theorem rw_tracker_arm_status (s : Checker (List ℕ)) :
    s.rw_tracker_arm.ctx_switch_status = s.ctx_switch_status := by
  unfold rw_tracker_arm
  split <;> rfl

@[simp] theorem rw_tracker_arm_allocated (s : Checker (List ℕ)) :
    s.rw_tracker_arm.allocated = s.allocated := by
  unfold rw_tracker_arm
  split <;> rfl

/-- What the prefetch abort does first: arm the tracker and save the registers. -/
def saved (th : ℕ) (s : Checker (List ℕ)) : Checker (List ℕ) :=
  save th s.rw_tracker_arm

theorem saved_eq (th : ℕ) (s : Checker (List ℕ)) : saved th s = { s with
    armed := s.rw_tracker_enabled || s.armed
    threads := Function.update s.threads th { s.threads th with regs := s.regs } } := by
  unfold saved rw_tracker_arm
  cases hs : s.rw_tracker_enabled <;> simp [save, setThread, hs]

@[simp] theorem saved_cur_thread (th : ℕ) (s : Checker (List ℕ)) :
    (saved th s).cur_thread = s.cur_thread := by
  rw [saved_eq]

@[simp] theorem saved_equiv_runq (th : ℕ) (s : Checker (List ℕ)) :
    (saved th s).equiv_runq = s.equiv_runq := by
  rw [saved_eq]

@[simp] theorem saved_allocated (th : ℕ) (s : Checker (List ℕ)) :
    (saved th s).allocated = s.allocated := by
  rw [saved_eq]

@[simp] theorem saved_schedule (th : ℕ) (s : Checker (List ℕ)) : (saved th s).schedule = s.schedule := by
  rw [saved_eq]

@[simp] theorem saved_shared_memory (th : ℕ) (s : Checker (List ℕ)) :
    (saved th s).shared_memory = s.shared_memory := by
  rw [saved_eq]

@[simp] theorem saved_ctx_switch_status (th : ℕ) (s : Checker (List ℕ)) :
    (saved th s).ctx_switch_status = s.ctx_switch_status := by
  rw [saved_eq]

@[simp] theorem saved_pcs (th : ℕ) (s : Checker (List ℕ)) : (saved th s).pcs = s.pcs := by
  rw [saved_eq]

@[simp] theorem saved_nullReads (th : ℕ) (s : Checker (List ℕ)) :
    (saved th s).nullReads = s.nullReads := by
  rw [saved_eq]

@[simp] theorem saved_tid (th x : ℕ) (s : Checker (List ℕ)) :
    ((saved th s).threads x).tid = (s.threads x).tid := by
  rw [saved_eq]
  by_cases hx : x = th
  · subst hx
    simp only [Function.update_self]
  · simp only [Function.update_of_ne hx]

/-- A shared access of the current thread is counted. -/
def counted (th : ℕ) (s : Checker (List ℕ)) : Checker (List ℕ) :=
  { saved th s with
    ctx_switch_status := { s.ctx_switch_status with
      do_instr_count := false, instr_count := s.ctx_switch_status.instr_count + 1 } }

/-- The count is full. -/
def counted_out (th : ℕ) (s : Checker (List ℕ)) : Checker (List ℕ) :=
  { saved th s with
    ctx_switch_status := { s.ctx_switch_status with
      do_instr_count := false, ctx_switch := s.ctx_switch_status.ctx_switch + 1
      instr_count := 0 } }

/-- The three ways out of the prefetch abort. -/
inductive Handled (s : Checker (List ℕ)) : Checker (List ℕ) → Prop where
  | unmarked {th} (hcur : s.cur_thread = some th)
      (hdo : s.ctx_switch_status.do_instr_count = false) : Handled s (saved th s)
  | counted {th schedule count} (hcur : s.cur_thread = some th)
      (hdo : s.ctx_switch_status.do_instr_count = true) (hschedule : s.schedule = some schedule)
      (hcount : schedule.instr_counts[s.ctx_switch_status.ctx_switch]? = some count)
      (hlt : s.ctx_switch_status.instr_count + 1 < count) : Handled s (counted th s)
  | switched {th schedule count tid next q} (hcur : s.cur_thread = some th)
      (hdo : s.ctx_switch_status.do_instr_count = true) (hschedule : s.schedule = some schedule)
      (hcount : schedule.instr_counts[s.ctx_switch_status.ctx_switch]? = some count)
      (hle : count ≤ s.ctx_switch_status.instr_count + 1)
      (htid : schedule.tids[s.ctx_switch_status.ctx_switch + 1]? = some tid)
      (hnext : retrieve_tid_from_queue tid (counted_out th s) =
        .ok (next, { counted_out th s with equiv_runq := q })) :
      Handled s (mismatch_run next
        { counted_out th s with equiv_runq := q ++ [th], cur_thread := some next })

theorem equiv_hash_handler_iff : equiv_hash_handler s = .ok t ↔ Handled s t := by
  constructor
  · intro h
    unfold equiv_hash_handler at h
    obtain ⟨th, hcur, h⟩ := bind_ok_iff.mp h
    rw [cur_ok_iff, rw_tracker_arm_cur_thread] at hcur
    cases hdo : s.ctx_switch_status.do_instr_count with
    | false =>
      simp only [setThread, rw_tracker_arm_status, hdo, Bool.false_eq_true, if_false,
        Except.ok.injEq] at h
      rw [← h]
      simpa [saved, save, setThread] using Handled.unmarked hcur hdo
    | true =>
      cases hschedule : s.schedule with
      | none => simp [setThread, hdo, hschedule] at h
      | some schedule =>
        simp only [setThread, rw_tracker_arm_status, hdo, if_true, rw_tracker_arm_schedule,
          hschedule] at h
        obtain ⟨count, hcount, h⟩ := bind_ok_iff.mp h
        rw [readAt_ok_iff] at hcount
        split at h
        · rename_i hle
          obtain ⟨tid, htid, h⟩ := bind_ok_iff.mp h
          obtain ⟨⟨next, v⟩, hnext, h⟩ := bind_ok_iff.mp h
          rw [readAt_ok_iff] at htid
          obtain ⟨q, rfl, -, -⟩ := retrieve_tid_from_queue_spec hnext
          simp only [Except.ok.injEq] at h
          rw [← h]
          have hnext' : retrieve_tid_from_queue tid (counted_out th s) =
              .ok (next, { counted_out th s with equiv_runq := q }) := by
            simpa [counted_out, saved, save, setThread, hschedule] using hnext
          simpa [counted_out, saved, save, setThread, hschedule] using
            Handled.switched hcur hdo hschedule hcount hle htid hnext'
        · rename_i hlt
          simp only [Except.ok.injEq] at h
          rw [← h]
          simpa [Checker.counted, saved, save, setThread, hschedule] using
            Handled.counted hcur hdo hschedule hcount (by omega)
  · intro h
    unfold equiv_hash_handler
    cases h with
    | unmarked hcur hdo =>
      refine bind_ok_iff.mpr ⟨_, cur_ok_iff.mpr (by simpa using hcur), ?_⟩
      simp [setThread, hdo, saved, save]
    | counted hcur hdo hschedule hcount hlt =>
      refine bind_ok_iff.mpr ⟨_, cur_ok_iff.mpr (by simpa using hcur), ?_⟩
      simp only [setThread, rw_tracker_arm_status, hdo, if_true, rw_tracker_arm_schedule, hschedule]
      refine bind_ok_iff.mpr ⟨_, readAt_ok_iff.mpr hcount, ?_⟩
      rw [if_neg (by omega)]
      simp [Checker.counted, saved, save, setThread, hschedule]
    | switched hcur hdo hschedule hcount hle htid hnext =>
      refine bind_ok_iff.mpr ⟨_, cur_ok_iff.mpr (by simpa using hcur), ?_⟩
      simp only [setThread, rw_tracker_arm_status, hdo, if_true, rw_tracker_arm_schedule, hschedule]
      refine bind_ok_iff.mpr ⟨_, readAt_ok_iff.mpr hcount, ?_⟩
      rw [if_pos hle]
      refine bind_ok_iff.mpr ⟨_, readAt_ok_iff.mpr htid, ?_⟩
      refine bind_ok_iff.mpr ⟨_, by simpa [counted_out, saved, save, setThread, hschedule] using hnext, ?_⟩
      simp [counted_out, saved, save, setThread, hschedule]

theorem keeps_saved {th : ℕ} (hcur : s.cur_thread = some th) : Keeps s (saved th s) := by
  have harm : Keeps s s.rw_tracker_arm :=
    .of_threads (by simp) (by simp) (.inr (by simp)) (by simpa using fun x hx => .inl hx)
      (by simpa using fun x hx => .inr hx)
  exact harm.trans (keeps_save (by simpa using hcur))

theorem Handled.keeps (h : Handled s t) : Keeps s t := by
  cases h with
  | unmarked hcur _ => exact keeps_saved hcur
  | counted hcur _ _ _ _ =>
    exact (keeps_saved hcur).trans (.of_threads rfl rfl (.inr rfl) (fun x hx => .inl hx)
      fun x hx => .inr hx)
  | @switched th schedule count tid next q hcur _ _ _ _ _ hnext =>
    obtain ⟨q', heq, hmem, hq⟩ := retrieve_tid_from_queue_spec hnext
    have hqq : q = q' := congrArg equiv_runq heq
    subst hqq
    refine (keeps_saved hcur).trans (.of_threads rfl rfl (.inr rfl) ?_ ?_)
    · intro x hx
      rcases List.mem_append.mp hx with hx | hx
      · exact .inl (hq x hx)
      · rw [List.mem_singleton.mp hx]
        exact .inr (by simpa [saved, save, setThread] using hcur)
    · intro x hx
      have hx' : next = x := by simpa [mismatch_run] using hx
      exact .inl (hx' ▸ hmem)

theorem Handled.counts (h : Handled s t) : Counts s t := by
  cases h with
  | unmarked _ _ =>
    apply Counts.stay <;> simp [saved, save, setThread]
  | counted _ _ _ _ _ =>
    apply Counts.stay <;> simp [Checker.counted]
  | switched _ _ hschedule hcount hle _ _ =>
    exact .switch _ _ hschedule hcount hle (by simp [mismatch_run, counted_out])
      (by simp [mismatch_run, counted_out])

theorem Counts.refl (s : Checker (List ℕ)) : Counts s s := .stay rfl (Nat.le_succ _)

theorem Stays.refl (s : Checker (List ℕ)) : Stays s s := ⟨rfl, rfl⟩

theorem prefetch_effect (h : prefetch s = .ok t) : Keeps s t ∧ Counts s t := by
  unfold prefetch at h
  split at h
  · cases h
    exact ⟨.refl s, .refl s⟩
  · obtain ⟨v, hv, h⟩ := bind_ok_iff.mp h
    cases h
    have hh := equiv_hash_handler_iff.mp hv
    exact ⟨hh.keeps.trans (.of_threads rfl rfl (.inr rfl) (fun x hx => .inl hx) fun x hx => .inr hx),
      hh.counts.trans ⟨rfl, rfl⟩⟩

theorem ctx_switch_handler_effect {touched : Finset Addr} {pc : Word}
    (h : ctx_switch_handler touched pc s = .ok t) : Keeps s t ∧ Stays s t := by
  unfold ctx_switch_handler at h
  split at h
  · cases h
    exact ⟨.refl s, .refl s⟩
  · split at h
    · cases h
      exact ⟨.refl s, .refl s⟩
    · split at h
      · cases h
      · split at h
        · simp only [Except.ok.injEq] at h
          subst h
          split <;>
            exact ⟨.of_threads rfl rfl (.inr rfl) (fun x hx => .inl hx) fun x hx => .inr hx,
              ⟨rfl, rfl⟩⟩
        · cases h
          exact ⟨.refl s, .refl s⟩

theorem access_effect {touched : Finset Addr} {w : Bool} (h : access touched w s = .ok t) :
    Keeps s t ∧ Stays s t := by
  unfold access at h
  split at h
  · obtain ⟨v, hv, h⟩ := bind_ok_iff.mp h
    cases h
    have hkeep : Keeps s v ∧ Stays s v := by
      unfold memory_touch_handler at hv
      split at hv
      · exact ctx_switch_handler_effect hv
      · cases hv
        exact ⟨.refl s, .refl s⟩
    exact ⟨hkeep.1.trans (.of_threads rfl rfl (.inr rfl) (fun x hx => .inl hx) fun x hx => .inr hx),
      hkeep.2.trans ⟨rfl, rfl⟩⟩
  · cases h
    exact ⟨.refl s, .refl s⟩

/-- No switch of the schedule is left. -/
def Done (s : Checker (List ℕ)) : Prop :=
  ∀ schedule, s.schedule = some schedule → schedule.n_ctx_switches ≤ s.ctx_switch_status.ctx_switch

theorem equiv_schedule_done {th : ℕ} (h : s.Done) :
    equiv_schedule th s = match RunQueue.pop s.equiv_runq with
      | (none, _) => .ok (mismatch_run th s)
      | (some next, q) => .ok (mismatch_run next
          { s with equiv_runq := RunQueue.append th q, cur_thread := some next }) := by
  unfold equiv_schedule
  split
  · rename_i hany
    cases hschedule : s.schedule with
    | none => simp [hschedule] at hany
    | some schedule =>
      have hlt : s.ctx_switch_status.ctx_switch < schedule.n_ctx_switches := by
        simpa [hschedule] using hany
      have := h schedule hschedule
      omega
  · rcases RunQueue.pop s.equiv_runq with ⟨_ | next, q⟩ <;> rfl

theorem done_of_equiv_schedule {th : ℕ} (h : equiv_schedule th s = .ok t) : s.Done := by
  intro schedule hschedule
  unfold equiv_schedule at h
  split at h
  · cases h
  · rename_i hdone
    simpa [hschedule] using hdone

/-- The ways out of a system call. -/
inductive Trapped (s : Checker (List ℕ)) : Progress (Checker (List ℕ)) → Prop where
  | putc_back {th} (hcur : s.cur_thread = some th) (hsp : check_sp ((save th s).threads th) = .ok ())
      (hno : s.regs 0 = EQUIV_PUTC)
      (hdone : s.Done)
      (hq : s.equiv_runq = []) :
      Trapped s (.running (mismatch_run th { save th s with uart := s.uart ++ [s.regs 1] }))
  | putc_next {th next q} (hcur : s.cur_thread = some th)
      (hsp : check_sp ((save th s).threads th) = .ok ()) (hno : s.regs 0 = EQUIV_PUTC)
      (hdone : s.Done)
      (hq : s.equiv_runq = next :: q) :
      Trapped s (.running (mismatch_run next { save th s with
        uart := s.uart ++ [s.regs 1], equiv_runq := q ++ [th], cur_thread := some next }))
  | yield {th next q} (hcur : s.cur_thread = some th)
      (hsp : check_sp ((save th s).threads th) = .ok ()) (hno : s.regs 0 = EQUIV_YIELD)
      (hq : s.equiv_runq ++ [th] = next :: q) :
      Trapped s (.running (mismatch_run next { save th s with
        schedule := none, ctx_switch_status := { s.ctx_switch_status with yielded := true }
        equiv_runq := q, cur_thread := some next }))
  | exit_last {th} (hcur : s.cur_thread = some th) (hsp : check_sp ((save th s).threads th) = .ok ())
      (hno : s.regs 0 = EQUIV_EXIT) (hq : s.equiv_runq = []) :
      Trapped s (.finished { save th s with
        schedule := none, equiv_runq := [], nullReads := s.nullReads + 1 })
  | exit_next {th next q} (hcur : s.cur_thread = some th)
      (hsp : check_sp ((save th s).threads th) = .ok ()) (hno : s.regs 0 = EQUIV_EXIT)
      (hq : s.equiv_runq = next :: q) :
      Trapped s (.running (mismatch_run next { save th s with
        schedule := none, equiv_runq := q, cur_thread := some next }))

theorem equiv_syscall_handler_iff {r : Progress (Checker (List ℕ))} :
    equiv_syscall_handler s = .ok r ↔ Trapped s r := by
  constructor
  · intro h
    unfold equiv_syscall_handler at h
    obtain ⟨th, hcur, h⟩ := bind_ok_iff.mp h
    rw [cur_ok_iff] at hcur
    obtain ⟨u, hsp, h⟩ := bind_ok_iff.mp h
    dsimp only at h
    split at h
    · rename_i hno
      obtain ⟨t, ht, h⟩ := bind_ok_iff.mp h
      cases h
      have hdone := done_of_equiv_schedule ht
      rw [equiv_schedule_done hdone] at ht
      cases hq : s.equiv_runq with
      | nil =>
        simp only [setThread, hq, RunQueue.list_pop, List.head?_nil, Except.ok.injEq] at ht
        subst ht
        simpa [save, setThread, hq] using Trapped.putc_back hcur hsp hno hdone hq
      | cons e q =>
        simp only [setThread, hq, RunQueue.list_pop, List.head?_cons, List.tail_cons,
          Except.ok.injEq] at ht
        subst ht
        exact Trapped.putc_next hcur hsp hno hdone hq
    · split at h
      · rename_i hno
        split at h
        · cases h
        · rename_i next q hpop
          cases h
          obtain ⟨hhead, rfl⟩ := Prod.mk.inj hpop
          have hq : s.equiv_runq ++ [th] = next :: (s.equiv_runq ++ [th]).tail :=
            List.eq_cons_of_mem_head? hhead
          exact Trapped.yield hcur hsp hno hq
      · split at h
        · rename_i hno
          cases hq : s.equiv_runq with
          | nil =>
            simp only [setThread, hq, RunQueue.list_pop, List.head?_nil, List.tail_nil] at h
            cases h
            exact Trapped.exit_last hcur hsp hno hq
          | cons e q =>
            simp only [setThread, hq, RunQueue.list_pop, List.head?_cons, List.tail_cons] at h
            cases h
            exact Trapped.exit_next hcur hsp hno hq
        · cases h
  · intro h
    unfold equiv_syscall_handler
    cases h with
    | putc_back hcur hsp hno hdone hq =>
      refine bind_ok_iff.mpr ⟨_, cur_ok_iff.mpr hcur, bind_ok_iff.mpr ⟨(), hsp, ?_⟩⟩
      have hregs : ∀ x t, (s.setThread x t).regs 0 = EQUIV_PUTC := fun _ _ => hno
      dsimp only
      rw [if_pos (hregs _ _)]
      refine bind_ok_iff.mpr ⟨_, ?_, rfl⟩
      rw [equiv_schedule_done]
      · simp [setThread, hq, save]
      · exact hdone
    | putc_next hcur hsp hno hdone hq =>
      refine bind_ok_iff.mpr ⟨_, cur_ok_iff.mpr hcur, bind_ok_iff.mpr ⟨(), hsp, ?_⟩⟩
      have hregs : ∀ x t, (s.setThread x t).regs 0 = EQUIV_PUTC := fun _ _ => hno
      dsimp only
      rw [if_pos (hregs _ _)]
      refine bind_ok_iff.mpr ⟨_, ?_, rfl⟩
      rw [equiv_schedule_done]
      · simp [setThread, hq, save]
      · exact hdone
    | yield hcur hsp hno hq =>
      refine bind_ok_iff.mpr ⟨_, cur_ok_iff.mpr hcur, bind_ok_iff.mpr ⟨(), hsp, ?_⟩⟩
      simp [setThread, hno, hq, save, EQUIV_PUTC, EQUIV_YIELD]
    | exit_last hcur hsp hno hq =>
      refine bind_ok_iff.mpr ⟨_, cur_ok_iff.mpr hcur, bind_ok_iff.mpr ⟨(), hsp, ?_⟩⟩
      simp [setThread, hno, hq, save, EQUIV_PUTC, EQUIV_YIELD, EQUIV_EXIT]
    | exit_next hcur hsp hno hq =>
      refine bind_ok_iff.mpr ⟨_, cur_ok_iff.mpr hcur, bind_ok_iff.mpr ⟨(), hsp, ?_⟩⟩
      simp [setThread, hno, hq, save, EQUIV_PUTC, EQUIV_YIELD, EQUIV_EXIT]

theorem Trapped.keeps {r : Progress (Checker (List ℕ))} (h : Trapped s r) : Keeps s r.state := by
  cases h with
  | putc_back hcur _ _ _ _ =>
    exact (keeps_save hcur).trans (.of_threads rfl rfl (.inr rfl) (fun x hx => .inl hx)
      fun x hx => .inr hx)
  | putc_next hcur _ _ _ hq =>
    refine (keeps_save hcur).trans (.of_threads rfl rfl (.inr rfl) ?_ ?_)
    · intro x hx
      rcases List.mem_append.mp hx with hx | hx
      · exact .inl (hq ▸ List.mem_cons_of_mem _ hx)
      · exact .inr (List.mem_singleton.mp hx ▸ hcur)
    · intro x hx
      cases hx
      exact .inl (hq ▸ List.mem_cons_self)
  | @yield th next q hcur _ _ hq =>
    have hall : ∀ x ∈ next :: q, x ∈ s.equiv_runq ∨ s.cur_thread = some x := by
      intro x hx
      rcases List.mem_append.mp (hq ▸ hx) with hx | hx
      · exact .inl hx
      · exact .inr (List.mem_singleton.mp hx ▸ hcur)
    refine (keeps_save hcur).trans (.of_threads rfl rfl (.inl rfl) ?_ ?_)
    · exact fun x hx => hall x (List.mem_cons_of_mem _ hx)
    · intro x hx
      cases hx
      exact hall _ List.mem_cons_self
  | exit_last hcur _ _ _ =>
    refine (keeps_save hcur).trans (.of_threads rfl rfl (.inl rfl) ?_ fun x hx => .inr hx)
    intro x hx
    cases hx
  | exit_next hcur _ _ hq =>
    refine (keeps_save hcur).trans (.of_threads rfl rfl (.inl rfl) ?_ ?_)
    · exact fun x hx => .inl (hq ▸ List.mem_cons_of_mem _ hx)
    · intro x hx
      cases hx
      exact .inl (hq ▸ List.mem_cons_self)

theorem Trapped.stays {r : Progress (Checker (List ℕ))} (h : Trapped s r) : Stays s r.state := by
  cases h <;> exact ⟨rfl, rfl⟩

theorem Trapped.finished (h : Trapped s (.finished t)) : t.equiv_runq = [] := by
  cases h
  rfl

/-- What one instruction does to the checker. -/
structure Stepped (s : Checker (List ℕ)) (r : Progress (Checker (List ℕ))) : Prop where
  keeps : Keeps s r.state
  counts : Counts s r.state
  finished : ∀ t, r = .finished t → t.equiv_runq = []

theorem step_effect {p : Platform} {r : Progress (Checker (List ℕ))} (h : step p s = .ok r) :
    Stepped s r := by
  unfold step at h
  obtain ⟨v, hv, h⟩ := bind_ok_iff.mp h
  obtain ⟨hk, hc⟩ := prefetch_effect hv
  split at h
  · obtain ⟨t, ht, h⟩ := bind_ok_iff.mp h
    cases h
    obtain ⟨hk', hs'⟩ := access_effect ht
    refine ⟨(hk.trans hk').trans ?_, (hc.trans hs').trans ⟨rfl, rfl⟩, fun t ht => by cases ht⟩
    exact .of_threads rfl rfl (.inr rfl) (fun x hx => .inl hx) fun x hx => .inr hx
  · rename_i regs _
    have htrap := equiv_syscall_handler_iff.mp h
    have hregs : Keeps v { v with regs } :=
      .of_threads rfl rfl (.inr rfl) (fun x hx => .inl hx) fun x hx => .inr hx
    refine ⟨(hk.trans hregs).trans htrap.keeps,
      hc.trans ⟨htrap.stays.ctx_switch, htrap.stays.instr_count⟩, ?_⟩
    rintro t rfl
    exact htrap.finished

/-- A run that has ended ends the same way with more fuel. -/
theorem steps_add {p : Platform} {fuel : ℕ} (h : steps p fuel s = .ok (.finished t)) (i : ℕ) :
    steps p (fuel + i) s = .ok (.finished t) := by
  induction fuel generalizing s with
  | zero => cases h
  | succ fuel ih =>
    rw [Nat.add_right_comm]
    obtain ⟨r, hr, h⟩ := bind_ok_iff.mp h
    refine bind_ok_iff.mpr ⟨r, hr, ?_⟩
    cases r with
    | running v => exact ih h
    | finished v => exact h

theorem steps_of_le {p : Platform} {fuel fuel' : ℕ} (h : steps p fuel s = .ok (.finished t))
    (hle : fuel ≤ fuel') : steps p fuel' s = .ok (.finished t) := by
  obtain ⟨i, rfl⟩ := Nat.exists_eq_add_of_le hle
  exact steps_add h i

/-- What every instruction keeps holds when a run stops, and before its last instruction if the
run has ended. -/
theorem steps_invariant {p : Platform} {fuel : ℕ} {P : Checker (List ℕ) → Prop}
    {r : Progress (Checker (List ℕ))} (hP : ∀ v w, P v → step p v = .ok (.running w) → P w) (hs : P s)
    (h : steps p fuel s = .ok r) : (∃ t, r = .running t ∧ P t) ∨
      ∃ v t, r = .finished t ∧ P v ∧ step p v = .ok (.finished t) := by
  induction fuel generalizing s with
  | zero =>
    cases h
    exact .inl ⟨s, rfl, hs⟩
  | succ fuel ih =>
    obtain ⟨r', hr', h⟩ := bind_ok_iff.mp h
    cases r' with
    | running v => exact ih (hP s v hs hr') h
    | finished v =>
      cases h
      exact .inr ⟨s, v, rfl, hs, hr'⟩

theorem steps_finished {p : Platform} {fuel : ℕ} {P : Checker (List ℕ) → Prop}
    (hP : ∀ v w, P v → step p v = .ok (.running w) → P w) (hs : P s)
    (h : steps p fuel s = .ok (.finished t)) : ∃ v, P v ∧ step p v = .ok (.finished t) := by
  rcases steps_invariant hP hs h with ⟨w, hw, -⟩ | ⟨v, w, hw, hv, hlast⟩
  · cases hw
  · cases hw
    exact ⟨v, hv, hlast⟩

/-- What a whole run does to the checker. -/
theorem steps_keeps {p : Platform} {fuel : ℕ} (h : steps p fuel s = .ok (.finished t)) :
    Keeps s t ∧ t.equiv_runq = [] := by
  obtain ⟨v, hv, hlast⟩ := steps_finished (P := Keeps s)
    (fun _ _ hv hw => hv.trans (step_effect hw).keeps) (.refl s) h
  have heffect := step_effect hlast
  exact ⟨hv.trans heffect.keeps, heffect.finished _ rfl⟩

theorem Counts.le (h : Counts s t) :
    s.ctx_switch_status.ctx_switch ≤ t.ctx_switch_status.ctx_switch := by
  cases h with
  | stay hc _ => omega
  | switch _ _ _ _ _ hc _ => omega

theorem steps_le {p : Platform} {fuel : ℕ} (h : steps p fuel s = .ok (.finished t)) :
    s.ctx_switch_status.ctx_switch ≤ t.ctx_switch_status.ctx_switch := by
  obtain ⟨v, hv, hlast⟩ := steps_finished
    (P := fun v => s.ctx_switch_status.ctx_switch ≤ v.ctx_switch_status.ctx_switch)
    (fun _ _ hv hw => hv.trans (step_effect hw).counts.le) le_rfl h
  exact hv.trans (step_effect hlast).counts.le

/-- The count of switches is at most the number of counts in the schedule. -/
structure Within (n : ℕ) (s : Checker (List ℕ)) : Prop where
  ctx_switch : s.ctx_switch_status.ctx_switch ≤ n
  counts : ∀ schedule, s.schedule = some schedule → schedule.instr_counts.length = n

theorem Within.step {p : Platform} {n : ℕ} {r : Progress (Checker (List ℕ))} (h : Within n s)
    (hr : step p s = .ok r) : Within n r.state := by
  have heffect := step_effect hr
  constructor
  · have hle := h.ctx_switch
    cases heffect.counts with
    | stay hc _ => omega
    | switch σ count hσ hcount _ hc _ =>
      have hlt := (List.getElem?_eq_some_iff.mp hcount).1
      rw [h.counts σ hσ] at hlt
      omega
  · intro σ hσ
    rcases heffect.keeps.schedule with hnone | heq
    · cases hσ.symm.trans hnone
    · exact h.counts σ (heq ▸ hσ)

/-- A run makes at most as many switches as its schedule has counts. -/
theorem steps_ctx_switch_le {p : Platform} {fuel n : ℕ} (h : steps p fuel s = .ok (.finished t))
    (hs : s.ctx_switch_status.ctx_switch ≤ n)
    (hn : ∀ schedule, s.schedule = some schedule → schedule.instr_counts.length = n) :
    t.ctx_switch_status.ctx_switch ≤ n := by
  obtain ⟨v, hv, hlast⟩ := steps_finished (P := Within n) (fun _ _ hv hw => hv.step hw) ⟨hs, hn⟩ h
  exact (hv.step hlast).ctx_switch

end Checker

end EquivChecker
