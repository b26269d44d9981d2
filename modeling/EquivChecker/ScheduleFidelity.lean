import EquivChecker.ThreadPlaces

/-!
# Runs follow their schedule

While a schedule is set, the counters of the checker agree with what a run shows from
outside: the switches made, and the shared touches of the running thread. A thread is
switched away from at the step that completes its last scheduled touch.
-/

namespace EquivChecker.Checker

/-- Traps without system calls other than yields and exits. -/
def Scheduled (w : Watch) (e : Trap) : Prop :=
  e.Allowed w ∧ ∀ regs, e = .syscall regs → regs 0 = EQUIV_YIELD ∨ regs 0 = EQUIV_EXIT

/-- A store to `report->pcs[c][i]` inside the rows of the report. -/
def Schedule.Inside (σ : Schedule) (store : ℕ × ℕ × Word) : Prop :=
  store.1 < σ.n_ctx_switches ∧ ∃ count, σ.instr_counts[store.1]? = some count ∧ store.2.1 < count

/-- The counters as the run shows them, while the schedule `σ` of `s` is set. -/
structure Follows (σ : Schedule) (s : Checker (List ℕ)) (w : Watch) (t : Checker (List ℕ)) : Prop where
  switches : t.ctx_switch_status.ctx_switch = w.switches
  pcs : ∃ stores, t.pcs = s.pcs ++ stores ∧ ∀ store ∈ stores, Schedule.Inside σ store
  bound : t.schedule ≠ none → w.switches ≤ σ.n_ctx_switches
  thread : t.schedule ≠ none → ∃ th, t.cur_thread = some th ∧
    σ.tids[w.switches]? = some (s.threads th).tid
  counts : t.schedule ≠ none → ∀ count, σ.instr_counts[w.switches]? = some count →
    t.ctx_switch_status.instr_count = w.completed ∧ w.completed < count ∧
      t.ctx_switch_status.do_instr_count = w.touched

variable {σ : Schedule} {s s₀ t v : Checker (List ℕ)} {w : Watch} {regs : Regs} {touched : Finset Addr}
  {pc : Word} {r : Progress (Checker (List ℕ))}

theorem schedule_eq (h : Placed s w t) (hσ : s.schedule = some σ) (hset : t.schedule ≠ none) :
    t.schedule = some σ := by
  obtain ⟨σ', hσ'⟩ := Option.ne_none_iff_exists'.mp hset
  rw [h.same_schedule hσ hσ']
  exact hσ'

/-- The row of a switch that is left has a count. -/
theorem count_lt_iff (hs : Startable s) (hσ : s.schedule = some σ) {i : ℕ} :
    i < σ.n_ctx_switches ↔ ∃ count, σ.instr_counts[i]? = some count := by
  rw [← (hs.fits σ hσ).counts_length]
  constructor
  · intro hlt
    exact ⟨_, List.getElem?_eq_getElem hlt⟩
  · rintro ⟨count, hcount⟩
    exact (List.getElem?_eq_some_iff.mp hcount).1

theorem Follows.touch (hs : Startable s) (hσ : s.schedule = some σ) (hp : Placed s w t)
    (h : Follows σ s w t) (hrun : t.handle (.touch touched pc) = .ok (.running v)) :
    Follows σ s (w.observe t (.touch touched pc) (.running v)) v := by
  obtain ⟨v', hv, hv'⟩ := bind_ok_iff.mp hrun
  cases hv'
  rcases hp.touch hs touched pc with ⟨σ', hσt, hlt, hmeet, heq⟩ | ⟨hmeet, heq⟩
  · cases hv.symm.trans heq
    cases hσ.symm.trans (hp.schedule σ' hσt).1
    have hset : t.schedule ≠ none := by simp [hσt]
    obtain ⟨count, hcount⟩ := (count_lt_iff hs hσ).mp hlt
    rw [h.switches] at hlt hcount
    obtain ⟨hinstr, hcompleted, -⟩ := h.counts hset count hcount
    obtain ⟨stores, hstores, hinside⟩ := h.pcs
    refine ⟨h.switches, ?_, h.bound, h.thread, fun _ count' hcount' => ?_⟩
    · unfold withTouch
      split
      · refine ⟨stores ++ [(w.switches, w.completed, pc)], ?_, fun store hstore => ?_⟩
        · rw [← List.append_assoc, ← hstores, h.switches, hinstr]
        · rcases List.mem_append.mp hstore with hstore | hstore
          · exact hinside store hstore
          · rw [List.mem_singleton.mp hstore]
            exact ⟨hlt, count, hcount, hcompleted⟩
      · exact ⟨stores, hstores, hinside⟩
    · obtain ⟨hinstr', hcompleted', -⟩ := h.counts hset count' hcount'
      exact ⟨hinstr', hcompleted', by simp [Watch.observe, withTouch, hmeet]⟩
  · cases hv.symm.trans heq
    refine ⟨h.switches, h.pcs, h.bound, h.thread, fun hset count hcount => ?_⟩
    obtain ⟨hinstr, hcompleted, hdo⟩ := h.counts hset count hcount
    have hlt : t.ctx_switch_status.ctx_switch < σ.n_ctx_switches :=
      h.switches ▸ (count_lt_iff hs hσ).mpr ⟨count, hcount⟩
    refine ⟨hinstr, hcompleted, ?_⟩
    simp [Watch.observe, hdo, hmeet σ (schedule_eq hp hσ hset) hlt]

theorem Follows.handled (hs : Startable s) (hσ : s.schedule = some σ) (hcounts : ∀ c ∈ σ.instr_counts, 1 ≤ c)
    (hp : Placed s w t) (h : Follows σ s w t) (hv : Handled { t with regs } v) :
    Follows σ s (w.observe t (.step regs) (.running v)) v := by
  have hset : ∀ th, (saved th { t with regs }).schedule ≠ none → t.schedule ≠ none :=
    fun th hne => saved_schedule th { t with regs } ▸ hne
  cases hv with
  | @unmarked th hcur hdo =>
    have hsame : (saved th { t with regs }).cur_thread = t.cur_thread := saved_cur_thread _ _
    have hstatus : (saved th { t with regs }).ctx_switch_status = t.ctx_switch_status :=
      saved_ctx_switch_status _ _
    rw [observe_same hsame]
    refine ⟨?_, ?_, fun hne => h.bound (hset th hne), ?_, fun hne count hcount => ?_⟩
    · rw [hstatus]
      exact h.switches
    · rw [saved_pcs]
      exact h.pcs
    · rw [hsame]
      exact fun hne => h.thread (hset th hne)
    · obtain ⟨hinstr, hcompleted, hdo'⟩ := h.counts (hset th hne) count hcount
      have huntouched : w.touched = false := hdo'.symm.trans hdo
      rw [hstatus]
      simp only [huntouched, Bool.toNat_false, Nat.add_zero]
      exact ⟨hinstr, hcompleted, hdo⟩
  | @counted th σ' count hcur hdo hσt hcount hlt =>
    have hsame : (Checker.counted th { t with regs }).cur_thread = t.cur_thread :=
      saved_cur_thread th { t with regs }
    have hne : t.schedule ≠ none := ne_of_eq_of_ne hσt (Option.some_ne_none σ')
    cases hp.same_schedule hσ hσt
    rw [observe_same hsame]
    refine ⟨h.switches, ?_, fun _ => h.bound hne, fun _ => ?_, fun _ count' hcount' => ?_⟩
    · rw [show (Checker.counted th { t with regs }).pcs = t.pcs from saved_pcs th { t with regs }]
      exact h.pcs
    · rw [hsame]
      exact h.thread hne
    · obtain ⟨hinstr, -, hdo'⟩ := h.counts hne count' hcount'
      have htouched : w.touched = true := hdo'.symm.trans hdo
      have hcount : σ.instr_counts[t.ctx_switch_status.ctx_switch]? = some count := hcount
      rw [h.switches] at hcount
      cases hcount.symm.trans hcount'
      have hlt' : t.ctx_switch_status.instr_count + 1 < count := hlt
      simp only [htouched, Bool.toNat_true]
      exact ⟨congrArg (· + 1) hinstr, hinstr ▸ hlt', rfl⟩
  | @switched th σ' count tid next q hcur hdo hσt hcount hle htid hnext =>
    cases hp.same_schedule hσ hσt
    obtain ⟨hlt, rfl, hother, -⟩ := hp.switched_to hs hcur hdo hσt htid hnext
    have hnew : (mismatch_run next { counted_out th { t with regs } with
        equiv_runq := q ++ [th], cur_thread := some next }).cur_thread ≠ t.cur_thread := by
      rw [show t.cur_thread = some th from hcur]
      exact fun heq => hother (Option.some_inj.mp heq)
    rw [observe_other hnew]
    have htid : σ.tids[t.ctx_switch_status.ctx_switch + 1]? = some (s.threads next).tid := htid
    rw [h.switches] at hlt htid
    refine ⟨congrArg (· + 1) h.switches, ?_, fun _ => hlt, fun _ => ⟨next, rfl, htid⟩,
      fun _ count' hcount' => ?_⟩
    · change ∃ stores, (saved th { t with regs }).pcs = _ ∧ _
      rw [saved_pcs]
      exact h.pcs
    · exact ⟨rfl, hcounts count' (List.mem_of_getElem? hcount'), rfl⟩

/-- A yield or an exit clears the schedule and leaves the counters. -/
theorem Trapped.unscheduled (hno : s.regs 0 = EQUIV_YIELD ∨ s.regs 0 = EQUIV_EXIT) (hr : Trapped s r) :
    r.state.schedule = none ∧ r.state.pcs = s.pcs ∧
      ∃ y, r.state.ctx_switch_status = { s.ctx_switch_status with yielded := y } := by
  have hnot : s.regs 0 ≠ EQUIV_PUTC := by
    rcases hno with hno | hno
    · exact ne_of_eq_of_ne hno (by decide)
    · exact ne_of_eq_of_ne hno (by decide)
  cases hr with
  | putc_back _ _ hputc _ _ => exact absurd hputc hnot
  | putc_next _ _ hputc _ _ => exact absurd hputc hnot
  | yield _ _ _ _ => exact ⟨rfl, rfl, true, rfl⟩
  | exit_last _ _ _ _ => exact ⟨rfl, rfl, _, rfl⟩
  | exit_next _ _ _ _ => exact ⟨rfl, rfl, _, rfl⟩

theorem Follows.trapped (h : Follows σ s w t) (hno : regs 0 = EQUIV_YIELD ∨ regs 0 = EQUIV_EXIT)
    (hr : Trapped { t with regs } r) : Follows σ s (w.observe t (.syscall regs) r) r.state := by
  obtain ⟨hschedule, hpcs, y, hstatus⟩ := hr.unscheduled hno
  refine ⟨?_, ?_, fun hne => absurd hschedule hne, fun hne => absurd hschedule hne,
    fun hne => absurd hschedule hne⟩
  · rw [hstatus]
    exact h.switches
  · rw [hpcs]
    exact h.pcs

/-- A step switches threads when it completes the last scheduled touch of the running one. -/
theorem switch_iff (hs : Startable s) (hσ : s.schedule = some σ) (hp : Placed s w t)
    (h : Follows σ s w t) (hv : Handled { t with regs } v) : v.cur_thread ≠ t.cur_thread ↔
      t.schedule ≠ none ∧ w.touched = true ∧ σ.instr_counts[w.switches]? = some (w.completed + 1) := by
  constructor
  · intro hnew
    cases hv with
    | unmarked _ _ => exact absurd (saved_cur_thread _ _) hnew
    | @counted th _ _ _ _ _ _ _ => exact absurd (saved_cur_thread th { t with regs }) hnew
    | @switched th σ' count tid next q hcur hdo hσt hcount hle htid hnext =>
      have hne : t.schedule ≠ none := ne_of_eq_of_ne hσt (Option.some_ne_none σ')
      cases hp.same_schedule hσ hσt
      have hcount : σ.instr_counts[t.ctx_switch_status.ctx_switch]? = some count := hcount
      rw [h.switches] at hcount
      obtain ⟨hinstr, hcompleted, hdo'⟩ := h.counts hne count hcount
      have hle' : count ≤ t.ctx_switch_status.instr_count + 1 := hle
      refine ⟨hne, (hp.pending hdo).1, ?_⟩
      rw [hcount, show count = w.completed + 1 by omega]
  · rintro ⟨hne, htouched, hlast⟩
    obtain ⟨hinstr, -, hdo⟩ := h.counts hne _ hlast
    rw [htouched] at hdo
    cases hv with
    | unmarked _ hdo' =>
      rw [show t.ctx_switch_status.do_instr_count = false from hdo'] at hdo
      cases hdo
    | @counted th σ' count _ _ hσt hcount hlt =>
      cases hp.same_schedule hσ hσt
      have hcount : σ.instr_counts[t.ctx_switch_status.ctx_switch]? = some count := hcount
      rw [h.switches] at hcount
      cases hcount.symm.trans hlast
      have hlt' : t.ctx_switch_status.instr_count + 1 < w.completed + 1 := hlt
      omega
    | @switched th σ' count tid next q hcur _ hσt hcount hle htid hnext =>
      obtain ⟨-, -, hother, -⟩ := hp.switched_to hs hcur hdo hσt htid hnext
      rw [show t.cur_thread = some th from hcur]
      exact fun heq => hother (Option.some_inj.mp heq)

theorem Startable.follows_started {th : ℕ} {q : List ℕ} (hs : Startable s)
    (hcounts : ∀ c ∈ σ.instr_counts, 1 ≤ c) (hfirst : σ.tids[0]? = some (s.threads th).tid) :
    Follows σ s .start (started th q s) := by
  refine ⟨?_, ⟨[], (List.append_nil _).symm, fun _ h => absurd h List.not_mem_nil⟩, fun _ => Nat.zero_le _,
    fun _ => ⟨th, rfl, hfirst⟩, fun _ count hcount => ?_⟩
  · rw [started, hs.status]
    rfl
  · rw [started, hs.status]
    exact ⟨rfl, hcounts count (List.mem_of_getElem? hcount), rfl⟩

/-- Runs keep to the schedule. -/
theorem Reaches.follows (hs : Startable s) (hσ : s.schedule = some σ)
    (hcounts : ∀ c ∈ σ.instr_counts, 1 ≤ c) (h₀ : Placed s .start s₀) (hf₀ : Follows σ s .start s₀)
    (h : Reaches Scheduled s₀ w r) : Follows σ s w r.state := by
  induction h with
  | start => exact hf₀
  | @trap w t e r hr hok hrun ih =>
    have hp : Placed s w t := hr.placed hs (fun _ _ h => h.1) h₀
    cases e with
    | touch touched pc =>
      obtain ⟨v, -, hv⟩ := bind_ok_iff.mp hrun
      cases hv
      exact Follows.touch hs hσ hp ih hrun
    | step regs =>
      obtain ⟨v, hv, hr⟩ := bind_ok_iff.mp hrun
      cases hr
      exact ih.handled hs hσ hcounts hp (equiv_hash_handler_iff.mp hv)
    | syscall regs => exact ih.trapped (hok.2 regs rfl) (equiv_syscall_handler_iff.mp hrun)

/-- A run with a schedule set follows it: the counters agree with the switches and shared
touches that happen, every store to the report is inside it, a step switches threads when it
completes the last scheduled touch of the running thread, and no trap but a panicking
system call fails. -/
theorem schedule_fidelity (s : Checker (List ℕ)) (σ : Schedule) (hs : Startable s)
    (hσ : s.schedule = some σ) (hcounts : ∀ c ∈ σ.instr_counts, 1 ≤ c) :
    ∃ s₀, equiv_run_start s = .ok s₀ ∧ ∀ w r, Reaches Scheduled s₀ w r →
      Follows σ s w r.state ∧ ∀ t, r = .running t →
        (∀ regs, ∃ v, equiv_hash_handler { t with regs } = .ok v ∧ (v.cur_thread ≠ t.cur_thread ↔
          t.schedule ≠ none ∧ w.touched = true ∧
            σ.instr_counts[w.switches]? = some (w.completed + 1))) ∧
        ∀ e, Scheduled w e → ∀ f, t.handle e = .error f → ∃ regs msg, e = .syscall regs ∧
          f = .panic msg := by
  obtain ⟨th, q, hstart, h₀, hfirst⟩ := hs.start
  have hf₀ := hs.follows_started (q := q) hcounts (hfirst σ hσ)
  refine ⟨_, hstart, fun w r hr => ⟨hr.follows hs hσ hcounts h₀ hf₀, ?_⟩⟩
  rintro t rfl
  have hp : Placed s w t := hr.placed hs (fun _ _ h => h.1) h₀
  refine ⟨fun regs => ?_, fun e hok f hf => ?_⟩
  · obtain ⟨v, hv⟩ := hp.exists_step hs regs
    exact ⟨v, equiv_hash_handler_iff.mpr hv,
      switch_iff hs hσ hp (hr.follows hs hσ hcounts h₀ hf₀) hv⟩
  · exact hp.error_panics hs hf

instance (w : Watch) : (e : Trap) → Decidable (Scheduled w e)
  | .touch _ _ => .isTrue ⟨trivial, fun _ h => (nomatch h)⟩
  | .step _ => .isTrue ⟨trivial, fun _ h => (nomatch h)⟩
  | .syscall regs => decidable_of_iff
      (w.touched = false ∧ (regs 0 = EQUIV_YIELD ∨ regs 0 = EQUIV_EXIT))
      ⟨fun h => ⟨h.1, fun _ heq => by cases heq; exact h.2⟩, fun h => ⟨h.1, h.2 regs rfl⟩⟩

/-- Thread 1 is preempted at its first shared touch, and thread 2 yields to it. -/
theorem schedule_fidelity_two : ∃ s₀ w t, equiv_run_start twoThreads = .ok s₀ ∧
    Reaches Scheduled s₀ w (.running t) ∧ w.switches = 1 ∧
    Follows ⟨[1, 2], [1], 1, 2, true⟩ twoThreads w t := by
  obtain ⟨s₀, hstart, hall⟩ := schedule_fidelity twoThreads ⟨[1, 2], [1], 1, 2, true⟩
    twoThreads_startable rfl (by decide)
  have hrun : (equiv_run_start twoThreads).toOption.bind (fun s₀ =>
      (replay Scheduled [.touch {512#32} 0x9000, .step fun _ => 0, sysno EQUIV_YIELD] .start s₀).map
        fun x => (x.1.switches, x.2.running?.isSome)) =
      some (1, true) := by
    decide +kernel
  rw [hstart] at hrun
  obtain ⟨⟨w, r⟩, hreplay, heq⟩ := Option.map_eq_some_iff.mp hrun
  obtain ⟨hswitches, hend⟩ := Prod.mk.inj heq
  have hreaches := Reaches.start.replay hreplay
  cases r with
  | running t => exact ⟨s₀, w, t, hstart, hreaches, hswitches, (hall w _ hreaches).1⟩
  | finished t => cases hend

end EquivChecker.Checker
