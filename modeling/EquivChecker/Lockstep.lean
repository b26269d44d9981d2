import EquivChecker.StepEffect

/-!
# Runs in lockstep

Two runs of the same threads whose schedules agree on the first `k` counts go
through the same steps as long as the first run makes no switch after the `k`-th:
either the second run has at least the same count for the next switch, or its
schedule ends there. What the two runs log, and the memory that no thread reads,
may differ.
-/

namespace EquivChecker

/-- The same instruction, as far as memory in `D` is concerned. -/
inductive Instr.Agree (D : Set Addr) : Instr → Instr → Prop where
  | exec {touched write regs mem mem'} (hmem : ∀ a ∈ D, mem' a = mem a) :
      Agree D (.exec touched write regs mem) (.exec touched write regs mem')
  | swi {regs} : Agree D (.swi regs) (.swi regs)

/-- The threads read no memory outside `D`. -/
def Platform.ReadsOnly (p : Platform) (D : Set Addr) : Prop :=
  ∀ regs mem mem', (∀ a ∈ D, mem' a = mem a) → (p.fetch regs mem).Agree D (p.fetch regs mem')

/-- How the schedule of the second run relates to that of the first. With `E` it goes on
after `k` switches, otherwise it ends there. -/
structure Schedule.Follows (k : ℕ) (E : Prop) (σ σ' : Schedule) : Prop where
  tids : σ'.tids = σ.tids
  counts : ∀ j < k, σ'.instr_counts[j]? = σ.instr_counts[j]?
  le : k ≤ σ.n_ctx_switches
  goes_on : E → k < σ.n_ctx_switches ∧ k < σ'.n_ctx_switches
  larger : E → ∀ count, σ.instr_counts[k]? = some count →
    ∃ count', σ'.instr_counts[k]? = some count' ∧ count ≤ count'
  ends : ¬E → σ'.n_ctx_switches = k

namespace Checker

/-- The two checkers are at the same point of runs that follow each other. -/
structure Lockstep (D : Set Addr) (k : ℕ) (E : Prop) (s s' : Checker (List ℕ)) : Prop where
  runq : s'.equiv_runq = s.equiv_runq
  threads : s'.threads = s.threads
  allocated : s'.allocated = s.allocated
  cur_thread : s'.cur_thread = s.cur_thread
  shared_memory : s'.shared_memory = s.shared_memory
  rw_tracker_enabled : s'.rw_tracker_enabled = s.rw_tracker_enabled
  armed : s'.armed = s.armed
  touch_handler : s'.touch_handler = s.touch_handler
  mismatch : s'.mismatch = s.mismatch
  regs : s'.regs = s.regs
  mem : ∀ a ∈ D, s'.mem a = s.mem a
  ctx_switch : s'.ctx_switch_status.ctx_switch = s.ctx_switch_status.ctx_switch
  le : s.ctx_switch_status.ctx_switch ≤ k
  counting : s.ctx_switch_status.ctx_switch < k ∨ E →
    s'.ctx_switch_status.do_instr_count = s.ctx_switch_status.do_instr_count ∧
      s'.ctx_switch_status.instr_count = s.ctx_switch_status.instr_count
  silent : s.ctx_switch_status.ctx_switch = k → ¬E → s'.ctx_switch_status.do_instr_count = false
  schedule : s.schedule = none ∧ s'.schedule = none ∨
    ∃ σ σ', s.schedule = some σ ∧ s'.schedule = some σ' ∧ σ.Follows k E σ'

variable {D : Set Addr} {k : ℕ} {E : Prop} {s s' t : Checker (List ℕ)}

theorem retrieve_tid_from_queue_congr {tid th : ℕ} {q : List ℕ} {v : Checker (List ℕ)}
    (h : retrieve_tid_from_queue tid s = .ok (th, { v with equiv_runq := q }))
    (hq : s'.equiv_runq = s.equiv_runq) (ht : s'.threads = s.threads)
    (ha : s'.allocated = s.allocated) :
    retrieve_tid_from_queue tid s' = .ok (th, { s' with equiv_runq := q }) := by
  unfold retrieve_tid_from_queue at h ⊢
  rw [hq, ht, ha]
  cases hs : s.equiv_runq with
  | nil => simp [hs] at h
  | cons e l =>
    simp only [hs, RunQueue.list_pop, List.head?_cons, List.tail_cons] at h ⊢
    obtain ⟨⟨x, q'⟩, hloop, heq⟩ := bind_ok_iff.mp h
    refine bind_ok_iff.mpr ⟨(x, q'), hloop, ?_⟩
    simp only [Except.ok.injEq, Prod.mk.injEq] at heq ⊢
    have hqq : q' = q := congrArg equiv_runq heq.2
    exact ⟨heq.1, by rw [hqq]⟩

theorem Lockstep.saved (h : Lockstep D k E s s') (th : ℕ) :
    Lockstep D k E (saved th s) (saved th s') := by
  rw [saved_eq, saved_eq]
  exact { h with
    armed := by simp [h.armed, h.rw_tracker_enabled]
    threads := by simp [h.threads, h.regs] }

theorem Lockstep.save (h : Lockstep D k E s s') (th : ℕ) :
    Lockstep D k E (save th s) (save th s') :=
  { h with threads := by simp [Checker.save, setThread, h.threads, h.regs] }

theorem Lockstep.schedule_some (h : Lockstep D k E s s') {σ : Schedule} (hσ : s.schedule = some σ) :
    ∃ σ', s'.schedule = some σ' ∧ σ.Follows k E σ' := by
  rcases h.schedule with ⟨hnone, -⟩ | ⟨τ, σ', hτ, hσ', hf⟩
  · exact absurd (hσ.symm.trans hnone) (by simp)
  · have heq : τ = σ := Option.some.inj (hτ.symm.trans hσ)
    exact ⟨σ', hσ', heq ▸ hf⟩

theorem Lockstep.not_counting (h : Lockstep D k E s s')
    (hE : ¬(s.ctx_switch_status.ctx_switch < k ∨ E)) :
    s.ctx_switch_status.ctx_switch = k ∧ ¬E := by
  rw [not_or] at hE
  exact ⟨by have := h.le; omega, hE.2⟩

/-- The prefetch abort, when the first run makes no switch after the `k`-th. -/
theorem Lockstep.handled (h : Lockstep D k E s s') (hs : Handled s t)
    (ht : t.ctx_switch_status.ctx_switch ≤ k) : ∃ t', Handled s' t' ∧ Lockstep D k E t t' := by
  cases hs with
  | @unmarked th hcur hdo =>
    have hdo' : s'.ctx_switch_status.do_instr_count = false := by
      by_cases hE : s.ctx_switch_status.ctx_switch < k ∨ E
      · rw [(h.counting hE).1, hdo]
      · exact h.silent (h.not_counting hE).1 (h.not_counting hE).2
    exact ⟨_, .unmarked (h.cur_thread ▸ hcur) hdo', h.saved th⟩
  | @counted th σ count hcur hdo hschedule hcount hlt =>
    obtain ⟨σ', hσ', hf⟩ := h.schedule_some hschedule
    by_cases hE : s.ctx_switch_status.ctx_switch < k ∨ E
    · obtain ⟨hdo', hinstr⟩ := h.counting hE
      obtain ⟨count', hcount', hle⟩ : ∃ count',
          σ'.instr_counts[s'.ctx_switch_status.ctx_switch]? = some count' ∧ count ≤ count' := by
        rw [h.ctx_switch]
        rcases Nat.lt_or_ge s.ctx_switch_status.ctx_switch k with hk | hk
        · exact ⟨count, by rw [hf.counts _ hk, hcount], le_rfl⟩
        · have hk' : s.ctx_switch_status.ctx_switch = k := le_antisymm h.le hk
          rw [hk'] at hcount ⊢
          exact hf.larger (hE.resolve_left (by omega)) count hcount
      refine ⟨_, .counted (h.cur_thread ▸ hcur) (hdo'.trans hdo) hσ' hcount' (by omega), ?_⟩
      exact { h.saved th with
        ctx_switch := h.ctx_switch
        le := h.le
        counting := fun _ => ⟨rfl, by simp [counted, hinstr]⟩
        silent := fun _ _ => rfl }
    · obtain ⟨hk, hnE⟩ := h.not_counting hE
      refine ⟨_, .unmarked (h.cur_thread ▸ hcur) (h.silent hk hnE), ?_⟩
      exact { h.saved th with
        ctx_switch := by simp [counted, h.ctx_switch]
        le := h.le
        counting := fun hc => absurd hc hE
        silent := fun hc hn => by rw [saved_ctx_switch_status]; exact h.silent hc hn }
  | @switched th σ count tid next q hcur hdo hschedule hcount hle htid hnext =>
    obtain ⟨σ', hσ', hf⟩ := h.schedule_some hschedule
    have hk : s.ctx_switch_status.ctx_switch < k := ht
    obtain ⟨hdo', hinstr⟩ := h.counting (.inl hk)
    have hcount' : σ'.instr_counts[s'.ctx_switch_status.ctx_switch]? = some count := by
      rw [h.ctx_switch, hf.counts _ hk, hcount]
    have htid' : σ'.tids[s'.ctx_switch_status.ctx_switch + 1]? = some tid := by
      rw [h.ctx_switch, hf.tids, htid]
    have hout : Lockstep D k E (counted_out th s) (counted_out th s') :=
      { h.saved th with
        ctx_switch := by simp [counted_out, h.ctx_switch]
        le := ht
        counting := fun _ => ⟨rfl, rfl⟩
        silent := fun _ _ => rfl }
    refine ⟨_, .switched (h.cur_thread ▸ hcur) (hdo'.trans hdo) hσ' hcount' (by omega) htid'
      (retrieve_tid_from_queue_congr hnext hout.runq hout.threads hout.allocated), ?_⟩
    exact { hout with
      runq := rfl
      cur_thread := rfl
      mismatch := by simp [mismatch_run, hout.threads]
      regs := by simp [mismatch_run, hout.threads] }

theorem Lockstep.prefetch (h : Lockstep D k E s s') (hs : prefetch s = .ok t)
    (ht : t.ctx_switch_status.ctx_switch ≤ k) :
    ∃ t', prefetch s' = .ok t' ∧ Lockstep D k E t t' := by
  unfold Checker.prefetch at hs ⊢
  rw [h.regs, h.mismatch]
  split
  · rename_i hpc
    rw [if_pos hpc] at hs
    cases hs
    exact ⟨s', rfl, h⟩
  · rename_i hpc
    rw [if_neg hpc] at hs
    obtain ⟨v, hv, hs⟩ := bind_ok_iff.mp hs
    cases hs
    obtain ⟨v', hv', hl⟩ := h.handled (equiv_hash_handler_iff.mp hv) ht
    exact ⟨_, bind_ok_iff.mpr ⟨v', equiv_hash_handler_iff.mpr hv', rfl⟩,
      { hl with mismatch := hl.regs ▸ rfl }⟩

/-- A shared access is marked. -/
def marked (s : Checker (List ℕ)) (pcs : List (ℕ × ℕ × Word)) : Checker (List ℕ) :=
  { s with pcs, ctx_switch_status := { s.ctx_switch_status with do_instr_count := true } }

theorem ctx_switch_handler_eq (touched : Finset Addr) (pc : Word) {σ : Schedule} {sh : Finset Addr}
    (hσ : s.schedule = some σ) (hn : s.ctx_switch_status.ctx_switch < σ.n_ctx_switches)
    (hsh : s.shared_memory = some sh) : ∃ pcs, ctx_switch_handler touched pc s =
      .ok (if sh ∩ touched ≠ ∅ then marked s pcs else s) := by
  cases hr : σ.report with
  | true =>
    refine ⟨s.pcs ++ [(s.ctx_switch_status.ctx_switch, s.ctx_switch_status.instr_count, pc)], ?_⟩
    simp only [ctx_switch_handler, hσ, if_neg (Nat.not_le.mpr hn), hsh, hr, if_true]
    split <;> simp [marked, hσ, hsh]
  | false =>
    refine ⟨s.pcs, ?_⟩
    simp only [ctx_switch_handler, hσ, if_neg (Nat.not_le.mpr hn), hsh, hr, Bool.false_eq_true,
      if_false]
    split <;> simp [marked, hσ, hsh]

theorem ctx_switch_handler_done {touched : Finset Addr} {pc : Word} {σ : Schedule}
    (hσ : s.schedule = some σ) (hn : σ.n_ctx_switches ≤ s.ctx_switch_status.ctx_switch) :
    ctx_switch_handler touched pc s = .ok s := by
  simp [ctx_switch_handler, hσ, hn]

theorem Lockstep.ctx_switch_handler (h : Lockstep D k E s s') {touched : Finset Addr} {pc : Word}
    (hs : ctx_switch_handler touched pc s = .ok t) :
    ∃ t', ctx_switch_handler touched pc s' = .ok t' ∧ Lockstep D k E t t' := by
  cases hschedule : s.schedule with
  | none =>
    have hnone : s'.schedule = none := by
      rcases h.schedule with ⟨-, hn⟩ | ⟨σ, σ', hσ, -⟩
      · exact hn
      · exact absurd (hσ.symm.trans hschedule) (by simp)
    simp only [Checker.ctx_switch_handler, hschedule, Except.ok.injEq] at hs
    subst hs
    exact ⟨s', by simp [Checker.ctx_switch_handler, hnone], h⟩
  | some σ =>
    obtain ⟨σ', hσ', hf⟩ := h.schedule_some hschedule
    by_cases hE : s.ctx_switch_status.ctx_switch < k ∨ E
    · -- both runs still count, or both are past their last switch
      have hn : s.ctx_switch_status.ctx_switch < σ.n_ctx_switches := by
        rcases hE with hlt | hE
        · exact hlt.trans_le hf.le
        · exact h.le.trans_lt (hf.goes_on hE).1
      have hn' : s'.ctx_switch_status.ctx_switch < σ'.n_ctx_switches := by
        rw [h.ctx_switch]
        by_cases hE' : E
        · exact h.le.trans_lt (hf.goes_on hE').2
        · rw [hf.ends hE']
          exact hE.resolve_right hE'
      cases hsh : s.shared_memory with
      | none => simp [Checker.ctx_switch_handler, hschedule, Nat.not_le.mpr hn, hsh] at hs
      | some sh =>
        obtain ⟨pcs, heq⟩ := ctx_switch_handler_eq touched pc hschedule hn hsh
        obtain ⟨pcs', heq'⟩ := ctx_switch_handler_eq touched pc hσ' hn'
          (h.shared_memory.trans hsh)
        refine ⟨_, heq', ?_⟩
        have ht := heq.symm.trans hs
        simp only [Except.ok.injEq] at ht
        rw [← ht]
        split
        · exact { h with
            counting := fun hc => ⟨rfl, (h.counting hc).2⟩
            silent := fun hc hnE => absurd hE (by
              rw [not_or]
              exact ⟨by have : s.ctx_switch_status.ctx_switch = k := hc; omega, hnE⟩) }
        · exact h
    · obtain ⟨hk, hnE⟩ := h.not_counting hE
      have hdone' : σ'.n_ctx_switches ≤ s'.ctx_switch_status.ctx_switch := by
        rw [hf.ends hnE, h.ctx_switch, hk]
      refine ⟨s', ctx_switch_handler_done hσ' hdone', ?_⟩
      rcases Nat.lt_or_ge s.ctx_switch_status.ctx_switch σ.n_ctx_switches with hn | hn
      · cases hsh : s.shared_memory with
        | none => simp [Checker.ctx_switch_handler, hschedule, Nat.not_le.mpr hn, hsh] at hs
        | some sh =>
          obtain ⟨pcs, heq⟩ := ctx_switch_handler_eq touched pc hschedule hn hsh
          have ht := heq.symm.trans hs
          simp only [Except.ok.injEq] at ht
          rw [← ht]
          split
          · exact { h with counting := fun hc => absurd hc hE }
          · exact h
      · rw [ctx_switch_handler_done hschedule hn] at hs
        cases hs
        exact h

theorem Lockstep.access (h : Lockstep D k E s s') {touched : Finset Addr} {w : Bool}
    (hs : access touched w s = .ok t) :
    ∃ t', access touched w s' = .ok t' ∧ Lockstep D k E t t' := by
  unfold Checker.access at hs ⊢
  rw [h.armed]
  split
  · rename_i harmed
    rw [if_pos harmed] at hs
    obtain ⟨v, hv, hs⟩ := bind_ok_iff.mp hs
    cases hs
    obtain ⟨v', hv', hl⟩ : ∃ v', memory_touch_handler touched s' = .ok v' ∧ Lockstep D k E v v' := by
      unfold memory_touch_handler at hv ⊢
      rw [h.touch_handler, h.regs]
      split
      · rename_i hth
        rw [if_pos hth] at hv
        exact h.ctx_switch_handler hv
      · rename_i hth
        rw [if_neg hth] at hv
        cases hv
        exact ⟨s', rfl, h⟩
    exact ⟨_, bind_ok_iff.mpr ⟨v', hv', rfl⟩, { hl with armed := rfl }⟩
  · rename_i harmed
    rw [if_neg harmed] at hs
    cases hs
    exact ⟨s', rfl, h⟩

/-- The two runs go on, or have ended together. -/
inductive LockstepP (D : Set Addr) (k : ℕ) (E : Prop) :
    Progress (Checker (List ℕ)) → Progress (Checker (List ℕ)) → Prop where
  | running {s s' : Checker (List ℕ)} (h : Lockstep D k E s s') : LockstepP D k E (.running s) (.running s')
  | finished {s s' : Checker (List ℕ)} (h : Lockstep D k E s s') :
    LockstepP D k E (.finished s) (.finished s')

theorem Lockstep.done (h : Lockstep D k E s s') (hd : s.Done) : s'.Done := by
  intro σ' hσ'
  rcases h.schedule with ⟨-, hnone⟩ | ⟨σ, τ, hσ, hτ, hf⟩
  · exact absurd (hσ'.symm.trans hnone) (by simp)
  · have heq : τ = σ' := Option.some.inj (hτ.symm.trans hσ')
    subst heq
    have hle := hd σ hσ
    have hk := h.le
    by_cases hE : E
    · have := (hf.goes_on hE).1
      omega
    · have := hf.ends hE
      have := hf.le
      rw [h.ctx_switch]
      omega

theorem Lockstep.trapped (h : Lockstep D k E s s') {r : Progress (Checker (List ℕ))}
    (hs : Trapped s r) : ∃ r', Trapped s' r' ∧ LockstepP D k E r r' := by
  have hsave : ∀ th, (Checker.save th s').threads = (Checker.save th s).threads :=
    fun th => (h.save th).threads
  cases hs with
  | @putc_back th hcur hsp hno hdone hq =>
    refine ⟨_, .putc_back (h.cur_thread ▸ hcur) (hsave th ▸ hsp) (h.regs ▸ hno) (h.done hdone)
      (h.runq ▸ hq), .running ?_⟩
    exact { h.save th with
      mismatch := by simp [mismatch_run, hsave th]
      regs := by simp [mismatch_run, hsave th] }
  | @putc_next th next q hcur hsp hno hdone hq =>
    refine ⟨_, .putc_next (h.cur_thread ▸ hcur) (hsave th ▸ hsp) (h.regs ▸ hno) (h.done hdone)
      (h.runq ▸ hq), .running ?_⟩
    exact { h.save th with
      runq := rfl
      cur_thread := rfl
      mismatch := by simp [mismatch_run, hsave th]
      regs := by simp [mismatch_run, hsave th] }
  | @yield th next q hcur hsp hno hq =>
    refine ⟨_, .yield (h.cur_thread ▸ hcur) (hsave th ▸ hsp) (h.regs ▸ hno) (h.runq ▸ hq),
      .running ?_⟩
    exact { h.save th with
      runq := rfl
      cur_thread := rfl
      mismatch := by simp [mismatch_run, hsave th]
      regs := by simp [mismatch_run, hsave th]
      schedule := .inl ⟨rfl, rfl⟩ }
  | @exit_last th hcur hsp hno hq =>
    refine ⟨_, .exit_last (h.cur_thread ▸ hcur) (hsave th ▸ hsp) (h.regs ▸ hno) (h.runq ▸ hq),
      .finished ?_⟩
    exact { h.save th with
      runq := rfl
      schedule := .inl ⟨rfl, rfl⟩ }
  | @exit_next th next q hcur hsp hno hq =>
    refine ⟨_, .exit_next (h.cur_thread ▸ hcur) (hsave th ▸ hsp) (h.regs ▸ hno) (h.runq ▸ hq),
      .running ?_⟩
    exact { h.save th with
      runq := rfl
      cur_thread := rfl
      mismatch := by simp [mismatch_run, hsave th]
      regs := by simp [mismatch_run, hsave th]
      schedule := .inl ⟨rfl, rfl⟩ }

theorem step_exec {p : Platform} {v : Checker (List ℕ)} {touched : Finset Addr} {write : Bool}
    {regs : Regs} {mem : Mem} (hv : Checker.prefetch s = .ok v)
    (hi : p.fetch v.regs v.mem = .exec touched write regs mem)
    (ht : Checker.access touched write v = .ok t) :
    step p s = .ok (.running { t with regs, mem }) := by
  refine bind_ok_iff.mpr ⟨v, hv, ?_⟩
  rw [hi]
  exact bind_ok_iff.mpr ⟨t, ht, rfl⟩

theorem step_swi {p : Platform} {v : Checker (List ℕ)} {regs : Regs}
    {r : Progress (Checker (List ℕ))} (hv : Checker.prefetch s = .ok v)
    (hi : p.fetch v.regs v.mem = .swi regs) (hr : Trapped { v with regs } r) :
    step p s = .ok r := by
  refine bind_ok_iff.mpr ⟨v, hv, ?_⟩
  rw [hi]
  exact equiv_syscall_handler_iff.mpr hr

theorem Lockstep.step {p : Platform} (hp : p.ReadsOnly D) (h : Lockstep D k E s s')
    {r : Progress (Checker (List ℕ))} (hs : step p s = .ok r)
    (hr : r.state.ctx_switch_status.ctx_switch ≤ k) :
    ∃ r', step p s' = .ok r' ∧ LockstepP D k E r r' := by
  obtain ⟨v, hv, hs⟩ := bind_ok_iff.mp hs
  cases hi : p.fetch v.regs v.mem with
  | exec touched write regs mem =>
    rw [hi] at hs
    obtain ⟨t, ht, hs⟩ := bind_ok_iff.mp hs
    cases hs
    have hk : v.ctx_switch_status.ctx_switch ≤ k := by
      rw [← (access_effect ht).2.ctx_switch]
      exact hr
    obtain ⟨v', hv', hl⟩ := h.prefetch hv hk
    have hagree := hp v.regs v.mem v'.mem hl.mem
    rw [hi] at hagree
    cases hi' : p.fetch v.regs v'.mem with
    | swi regs' =>
      rw [hi'] at hagree
      cases hagree
    | exec touched' write' regs' mem' =>
      rw [hi'] at hagree
      cases hagree with
      | exec hmem =>
        obtain ⟨t', ht', hl'⟩ := hl.access ht
        refine ⟨.running { t' with regs, mem := mem' }, ?_, .running ?_⟩
        · apply step_exec hv' _ ht'
          rw [hl.regs]
          exact hi'
        · exact { hl' with regs := rfl, mem := hmem }
  | swi regs =>
    rw [hi] at hs
    have hs' : equiv_syscall_handler { v with regs } = .ok r := hs
    have htrap := equiv_syscall_handler_iff.mp hs'
    have hk : v.ctx_switch_status.ctx_switch ≤ k := by
      have hstay : r.state.ctx_switch_status.ctx_switch = v.ctx_switch_status.ctx_switch :=
        htrap.stays.ctx_switch
      rw [← hstay]
      exact hr
    obtain ⟨v', hv', hl⟩ := h.prefetch hv hk
    have hagree := hp v.regs v.mem v'.mem hl.mem
    rw [hi] at hagree
    have hl' : Lockstep D k E { v with regs } { v' with regs } := { hl with regs := rfl }
    obtain ⟨r', hr', hlr⟩ := hl'.trapped htrap
    cases hi' : p.fetch v.regs v'.mem with
    | exec touched' write' regs' mem' =>
      rw [hi'] at hagree
      cases hagree
    | swi regs' =>
      rw [hi'] at hagree
      cases hagree
      refine ⟨r', step_swi hv' ?_ hr', hlr⟩
      rw [hl.regs]
      exact hi'

/-- If the first run ends without a switch after the `k`-th, so does the second. -/
theorem Lockstep.steps {p : Platform} (hp : p.ReadsOnly D) {fuel : ℕ} (h : Lockstep D k E s s')
    (hs : steps p fuel s = .ok (.finished t)) (ht : t.ctx_switch_status.ctx_switch ≤ k) :
    ∃ t', steps p fuel s' = .ok (.finished t') ∧ Lockstep D k E t t' := by
  induction fuel generalizing s s' with
  | zero => cases hs
  | succ fuel ih =>
    obtain ⟨r, hr, hs⟩ := bind_ok_iff.mp hs
    have hk : r.state.ctx_switch_status.ctx_switch ≤ k := by
      cases r with
      | running v => exact (steps_le hs).trans ht
      | finished v =>
        cases hs
        exact ht
    obtain ⟨r', hr', hl⟩ := h.step hp hr hk
    cases hl with
    | running hl =>
      obtain ⟨t', ht', hlt⟩ := ih hl hs
      exact ⟨t', bind_ok_iff.mpr ⟨_, hr', ht'⟩, hlt⟩
    | finished hl =>
      cases hs
      exact ⟨_, bind_ok_iff.mpr ⟨_, hr', rfl⟩, hl⟩

/-- If the first run makes the switch after the `k`-th, its count for that switch is at
most the number of steps of the second run. -/
theorem Lockstep.count_le {p : Platform} (hp : p.ReadsOnly D) {fuel fuel' d : ℕ} {t' : Checker (List ℕ)}
    (h : Lockstep D k E s s') (hs' : Checker.steps p fuel s' = .ok (.finished t'))
    (hs : Checker.steps p fuel' s = .ok (.finished t)) (ht : k < t.ctx_switch_status.ctx_switch)
    (hd : ∀ σ, s.schedule = some σ → σ.instr_counts[k]? = some d) :
    d ≤ s.ctx_switch_status.instr_count + fuel := by
  induction fuel generalizing s s' fuel' with
  | zero => cases hs'
  | succ fuel ih =>
    cases fuel' with
    | zero => cases hs
    | succ fuel' =>
      obtain ⟨r, hr, hs⟩ := bind_ok_iff.mp hs
      obtain ⟨r', hr', hs'⟩ := bind_ok_iff.mp hs'
      have hstep := step_effect hr
      rcases Nat.lt_or_ge k r.state.ctx_switch_status.ctx_switch with hgo | hk
      · -- the switch is made in this step, so its count is full
        cases hstep.counts with
        | stay hc _ =>
          have := h.le
          omega
        | switch σ count hσ hcount hle hc _ =>
          have hks : s.ctx_switch_status.ctx_switch = k := by
            have := h.le
            omega
          rw [hks, hd σ hσ] at hcount
          cases hcount
          omega
      · obtain ⟨r'', hr'', hl⟩ := h.step hp hr hk
        cases hr'.symm.trans hr''
        have hinstr : r.state.ctx_switch_status.instr_count ≤
            s.ctx_switch_status.instr_count + 1 := by
          cases hstep.counts with
          | stay _ hi => exact hi
          | switch _ _ _ _ _ _ hi => omega
        cases hl with
        | running hl =>
          have hle := ih hl hs' hs fun σ hσ => by
            rcases hstep.keeps.schedule with hnone | heq
            · exact absurd (hσ.symm.trans hnone) (by simp)
            · exact hd σ (heq ▸ hσ)
          simp only [Progress.state_running] at hinstr
          omega
        | finished hl =>
          cases hs
          simp only [Progress.state_finished] at hk
          omega

end Checker

end EquivChecker
