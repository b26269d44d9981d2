import EquivChecker.OrderEnumeration
import EquivChecker.ScheduledRuns
import EquivChecker.SerialReference

/-!
# Every run ends

When no interleaving of the functions goes on forever and a function that exits has its stack pointer
in its stack, every run ends. The thread that a schedule asks for is found in the run queue, and no
handler panics or reads past the end of the schedule.
-/

namespace EquivChecker.RunInterleaving

open Interleaving Checker SwitchPoints Interleaver.Setup

section Steps
variable {p : Platform} {tid : ℕ → ℕ} {ths : List ℕ} {shared : Finset Addr} {s t v x : Checker (List ℕ)}
  {q : List ℕ} {i : ℕ} {plan : List (ℕ × ℕ)} {touched : Finset Addr} {w : Bool} {regs : Regs} {mem : Mem}

/-- The functions end, and exit with their stack pointers in their stacks. -/
structure Halts (fp : Footprints p) (threads : ℕ → EqTh) (s : Config ℕ (Option Regs) Addr (BitVec 8)) :
    Prop where
  halting : Halting fp.machine s
  stack : ∀ σ, Valid fp.machine s σ → ∀ x regs regs', (run fp.machine s σ).regs x = some regs →
    p.fetch regs (run fp.machine s σ).mem = .swi regs' → check_sp { threads x with regs := regs' } = .ok ()

theorem Halts.step {fp : Footprints p} {threads : ℕ → EqTh} {s : Config ℕ (Option Regs) Addr (BitVec 8)}
    (h : Halts fp threads s) (hi : fp.machine.exited (s.regs i) = false) :
    Halts fp threads (Interleaving.step fp.machine s i) where
  halting := h.halting.step hi
  stack σ hσ := h.stack (i :: σ) ⟨hi, hσ⟩

theorem check_sp_congr {t t' : EqTh} (h : t'.frame = t.frame) (regs : Regs) :
    check_sp { t' with regs } = check_sp { t with regs } := by
  simp only [EqTh.frame, EqTh.mk.injEq] at h
  obtain ⟨-, -, -, -, hstart, hend⟩ := h
  simp only [check_sp, hstart, hend]

theorem At.exists_access (h : At tid ths shared v q i plan) (touched : Finset Addr) (w : Bool) :
    ∃ t, Checker.access touched w v = .ok t := by
  have hhandler : ∃ t, memory_touch_handler touched v = .ok t := by
    unfold memory_touch_handler ctx_switch_handler
    rcases h.plan with ⟨hnone, -⟩ | ⟨σ, hσ⟩
    · simp only [hnone, ite_self, exists_apply_eq_apply']
    · simp only [hσ.schedule, hσ.shared_memory]
      split_ifs <;> exact ⟨_, rfl⟩
  obtain ⟨t, ht⟩ := hhandler
  unfold Checker.access
  split
  · exact ⟨_, bind_ok_iff.mpr ⟨t, ht, rfl⟩⟩
  · exact ⟨v, rfl⟩

theorem exists_prefetch (h : Handled s t) : ∃ v, prefetch s = .ok v := by
  unfold prefetch
  split
  · exact ⟨s, rfl⟩
  · exact ⟨_, bind_ok_iff.mpr ⟨t, equiv_hash_handler_iff.mpr h, rfl⟩⟩

/-- The prefetch abort after an instruction does not fail. -/
theorem At.exists_handled (h : At tid ths shared v q i plan)
    (hacc : Accessed (decide (Marks shared touched plan)) v x) : ∃ t, Handled x t := by
  have hcur : x.cur_thread = some i := hacc.cur_thread.trans h.cur
  have hdo : x.ctx_switch_status.do_instr_count = decide (Marks shared touched plan) := by
    rw [hacc.status]
  by_cases hmark : Marks shared touched plan
  · rw [decide_eq_true hmark] at hdo
    rcases h.plan with ⟨-, rfl⟩ | ⟨σ, hσ⟩
    · exact absurd rfl hmark.1
    · have hxσ : x.schedule = some σ := hacc.schedule.trans hσ.schedule
      have hctx : x.ctx_switch_status.ctx_switch = v.ctx_switch_status.ctx_switch := by
        rw [hacc.status]
      have hinstr : x.ctx_switch_status.instr_count = v.ctx_switch_status.instr_count := by
        rw [hacc.status]
      cases hσ.plans with
      | done => exact absurd rfl hmark.1
      | @switch _ _ _ m next rest hlt hm hcount htid hne hmem hplans =>
        rw [← hctx] at hcount htid
        by_cases hlast : m = 1
        · obtain ⟨l, r, -, -, hfound⟩ := hσ.retrieves h hacc hne hmem
          exact ⟨_, .switched hcur hdo hxσ hcount (by omega) htid hfound⟩
        · exact ⟨_, .counted hcur hdo hxσ hcount (by omega)⟩
  · rw [decide_eq_false hmark] at hdo
    exact ⟨_, .unmarked hcur hdo⟩

/-- From a point between two instructions the run ends. -/
theorem At.ends (fp : Footprints p) (hmoves : Moves p) {threads : ℕ → EqTh}
    (h : At tid ths shared v q i plan) (hframe : ∀ x, (v.threads x).frame = (threads x).frame)
    (hhalts : Halts fp threads (config v)) (hs : prefetch s = .ok v) :
    ∃ fuel t, steps p fuel s = .ok (.finished t) := by
  obtain ⟨c, hc⟩ : ∃ c, config v = c := ⟨_, rfl⟩
  have hhalting : Halting fp.machine c := hc ▸ hhalts.halting
  induction hhalting generalizing s v q i plan with
  | intro c _ ih =>
    subst hc
    have hregs := config_regs h.cur
    have hi : fp.machine.exited ((config v).regs i) = false := by
      rw [hregs]
      rfl
    cases hfetch : p.fetch v.regs v.mem with
    | exec touched w regs mem =>
      obtain ⟨t, ht⟩ := h.exists_access touched w
      obtain ⟨u, hu⟩ := h.exists_handled (h.executed fp hfetch ht).accessed
      obtain ⟨s', hs'⟩ := exists_prefetch hu
      obtain ⟨q', i', plan', d, hnext⟩ := h.next fp hmoves hfetch ht hs'
      have hframe' : ∀ x, (s'.threads x).frame = (threads x).frame := fun x =>
        ((prefetch_effect hs').1.frame x).trans (((access_effect ht).1.frame x).trans (hframe x))
      obtain ⟨fuel, t', hsteps⟩ := ih i hi hnext.here hframe' (hnext.config ▸ hhalts.step hi) hs' hnext.config
      refine ⟨fuel + 1, t', bind_ok_iff.mpr ⟨.running { t with regs, mem }, ?_, hsteps⟩⟩
      refine bind_ok_iff.mpr ⟨v, hs, ?_⟩
      rw [hfetch]
      exact bind_ok_iff.mpr ⟨t, ht, rfl⟩
    | swi regs =>
      have hexit : regs 0 = EQUIV_EXIT := (fp.trap hfetch).1
      have hsp : check_sp ((save i { v with regs }).threads i) = .ok () := by
        have hsaved : (save i { v with regs }).threads i = { v.threads i with regs } := Function.update_self ..
        rw [hsaved, check_sp_congr (hframe i)]
        exact hhalts.stack [] trivial i v.regs regs hregs hfetch
      have hstep : ∀ r, Trapped { v with regs } r → Checker.step p s = .ok r := by
        intro r hr
        refine bind_ok_iff.mpr ⟨v, hs, ?_⟩
        rw [hfetch]
        exact equiv_syscall_handler_iff.mpr hr
      cases hq : v.equiv_runq with
      | nil =>
        have hlast := hstep _ (.exit_last h.cur hsp hexit hq)
        exact ⟨1, _, bind_ok_iff.mpr ⟨_, hlast, rfl⟩⟩
      | cons next q' =>
        have hr := Trapped.exit_next (s := { v with regs }) h.cur hsp hexit hq
        rcases h.trap fp hfetch hr with ⟨_, hfin, -⟩ | ⟨t, next', q'', hrun, -, hat, hpre, hconfig, -⟩
        · cases hfin
        · have hframe' : ∀ x, (t.threads x).frame = (threads x).frame := by
            intro x
            have hkeep := hr.keeps.frame x
            rw [hrun] at hkeep
            exact hkeep.trans (hframe x)
          obtain ⟨fuel, t', hsteps⟩ := ih i hi hat hframe' (hconfig ▸ hhalts.step hi) hpre hconfig
          exact ⟨fuel + 1, t', bind_ok_iff.mpr ⟨_, hstep _ hr, hrun ▸ hsteps⟩⟩

end Steps

section Runs
variable {u : Setup} {b : Checker (List ℕ)} {σ : Schedule} {i : ℕ} {plan : List (ℕ × ℕ)} {l r : List ℕ}

theorem execute_ends (fp : Footprints u.platform) (hmoves : Moves u.platform) (h : Built u b)
    (hstacks : ∀ th ∈ u.threads, check_sp (refreshed u.platform (b.threads th)) = .ok ())
    (hhalts : Halts fp b.threads (launch u b)) (hq : u.threads.reverse = l ++ i :: r)
    (hfirst : σ.tids[0]? = some (b.threads i).tid)
    (hplans : Plans (fun th => (b.threads th).tid) u.threads σ i 0 0 plan) :
    ∃ fuel t, u.execute fuel σ b = .ok (.finished t) := by
  have hlaunched : u.Launched σ b (first u σ b i (r ++ l)) :=
    ⟨hstacks, _, i, r ++ l, hfirst, h.retrieves σ hq, rfl⟩
  obtain ⟨v, hv⟩ : ∃ v, prefetch (first u σ b i (r ++ l)) = .ok v := exists_prefetch (.unmarked rfl rfl)
  obtain ⟨hat, hconfig, -⟩ := at_first h hq hplans hv
  have hframe : ∀ x, (v.threads x).frame = (b.threads x).frame := by
    intro x
    refine ((prefetch_effect hv).1.frame x).trans ?_
    simp only [first, entered, refreshAll]
    split <;> rfl
  obtain ⟨fuel, t, hsteps⟩ := hat.ends fp hmoves hframe (hconfig ▸ hhalts) hv
  exact ⟨fuel, t, execute_iff.mpr ⟨_, hlaunched, hsteps⟩⟩

/-- Every schedule of the functions has a run that ends, and it is an interleaving of them. -/
theorem run_ends (u : Setup) (fp : Footprints u.platform) (hmoves : Moves u.platform)
    (b : Checker (List ℕ)) (h : Built u b)
    (hstacks : ∀ th ∈ u.threads, check_sp (refreshed u.platform (b.threads th)) = .ok ())
    (hhalts : Halts fp b.threads (launch u b)) (σ : Schedule)
    (hfits : σ.Fits (fun th => (b.threads th).tid) u.threads) (hpos : ∀ m ∈ σ.instr_counts, 0 < m) :
    ∃ fuel t τ, u.execute fuel σ b = .ok (.finished t) ∧ Complete fp.machine (launch u b) τ ∧
      (Interleaving.run fp.machine (launch u b) τ).mem = t.mem ∧
      preemptions (trace fp.machine (launch u b) τ) = t.ctx_switch_status.ctx_switch := by
  have hlength : 0 < σ.tids.length := by
    rw [hfits.tids_length]
    exact Nat.succ_pos _
  obtain ⟨i, hi, htid⟩ := hfits.drawn _ (List.getElem_mem hlength)
  have hfirst : σ.tids[0]? = some (b.threads i).tid := by
    rw [List.getElem?_eq_getElem hlength, ← htid]
  obtain ⟨plan, hplans⟩ := exists_plans_of_fits hfits hpos hfirst
  obtain ⟨l, r, hq⟩ := List.append_of_mem (List.mem_reverse.mpr hi)
  obtain ⟨fuel, t, hrun⟩ := execute_ends fp hmoves h hstacks hhalts hq hfirst hplans
  obtain ⟨τ, n, hobeys, hmem, hctx, -⟩ := execute_obeys fp hmoves h hq hfirst hplans hrun
  have hnodup := (queue_perm hq).nodup_iff.mpr h.nodup
  refine ⟨fuel, t, τ, hrun, hobeys.complete hnodup ((alive_launch fp).perm (queue_perm hq).symm), hmem, ?_⟩
  rw [hobeys.preemptions hnodup, hctx]

/-- Whatever schedule `run_interleavings` tries, its run ends. -/
theorem everyRunEnds (u : Setup) (fp : Footprints u.platform) (hmoves : Moves u.platform)
    (b : Checker (List ℕ)) (h : Built u b)
    (htids : u.threads.map (fun th => (b.threads th).tid) = List.range' 1 u.num_funcs)
    (hstacks : ∀ th ∈ u.threads, check_sp (refreshed u.platform (b.threads th)) = .ok ())
    (hhalts : Halts fp b.threads (launch u b)) : u.EveryRunEnds b := by
  intro tids instr_nums n hord hvalid hvec hn
  have hdrawn : ∀ t ∈ tids, ∃ th ∈ u.threads, (b.threads th).tid = t := by
    intro t ht
    obtain ⟨hpos, hle⟩ := hord.range t ht
    have hmem : t ∈ List.range' 1 u.num_funcs := List.mem_range'_1.mpr ⟨hpos, by omega⟩
    rw [← htids] at hmem
    exact List.mem_map.mp hmem
  have hlength : 0 < tids.length := by
    rw [hord.length]
    exact Nat.succ_pos _
  obtain ⟨i, hi, htid⟩ := hdrawn _ (List.getElem_mem hlength)
  have hfirst : tids[0]? = some (b.threads i).tid := by
    rw [List.getElem?_eq_getElem hlength, ← htid]
  obtain ⟨plan, hplans⟩ : ∃ plan, Plans (fun th => (b.threads th).tid) u.threads
      { u.schedule tids instr_nums with n_ctx_switches := n } i 0 0 plan := by
    refine exists_plans ?_ (hn.trans_eq hvec.length.symm) hdrawn (Interleaver.tids_valid_iff.mp hvalid)
      (fun m hm => hvec.pos m hm) (Nat.zero_le _) hfirst
    change n < tids.length
    rw [hord.length]
    omega
  obtain ⟨l, r, hq⟩ := List.append_of_mem (List.mem_reverse.mpr hi)
  exact execute_ends fp hmoves h hstacks hhalts hq hfirst hplans

end Runs

section Racers

/-- The instructions that are left. -/
def left : Option Regs → ℕ
  | none => 0
  | some regs => if regs 2 = 0 then 3 else if regs 2 = 1 then 2 else 1

/-- Only the two functions run, and neither moves its stack pointer. -/
def Racing (s : Config ℕ (Option Regs) Addr (BitVec 8)) : Prop :=
  (∀ x, x ≠ 0 → x ≠ 1 → s.regs x = none) ∧
    ∀ x regs, s.regs x = some regs → regs REGS_SP = (racersStart.threads x).stack_end

/-- What is left of a function after one instruction. -/
theorem left_execOne (regs : Regs) (mem : Mem) : left (execOne racing (some regs) mem).1 < left (some regs) ∧
    ∀ regs', (execOne racing (some regs) mem).1 = some regs' → regs' REGS_SP = regs REGS_SP := by
  rcases racing_cases regs with ⟨h₀, h⟩ | ⟨h₁, h⟩ | ⟨h₀, h₁, h⟩
  · have hexec : (execOne racing (some regs) mem).1 = some (loaded regs mem) := by
      simp only [execOne, h]
    have htwo : loaded regs mem 2 = 1 := rfl
    rw [hexec]
    refine ⟨?_, fun regs' hregs' => ?_⟩
    · simp only [left, htwo, h₀]
      decide
    · obtain rfl := Option.some.inj hregs'
      rfl
  · have hexec : (execOne racing (some regs) mem).1 = some (stored regs) := by
      simp only [execOne, h]
    have htwo : stored regs 2 = 2 := rfl
    rw [hexec]
    refine ⟨?_, fun regs' hregs' => ?_⟩
    · simp only [left, htwo, h₁]
      decide
    · obtain rfl := Option.some.inj hregs'
      rfl
  · have hexec : (execOne racing (some regs) mem).1 = none := by
      simp only [execOne, h]
    rw [hexec]
    refine ⟨?_, fun regs' hregs' => nomatch hregs'⟩
    simp only [left, if_neg h₀, if_neg h₁]
    decide

theorem Racing.step {s : Config ℕ (Option Regs) Addr (BitVec 8)} {i : ℕ} (h : Racing s)
    (hi : racingFootprints.machine.exited (s.regs i) = false) :
    Racing (Interleaving.step racingFootprints.machine s i) ∧
      left ((Interleaving.step racingFootprints.machine s i).regs 0) +
        left ((Interleaving.step racingFootprints.machine s i).regs 1) < left (s.regs 0) + left (s.regs 1) := by
  obtain ⟨hnone, hsp⟩ := h
  obtain ⟨regs, hregs⟩ : ∃ regs, s.regs i = some regs := Option.ne_none_iff_exists'.mp fun hn => by
    rw [hn] at hi
    cases hi
  have hself : (Interleaving.step racingFootprints.machine s i).regs i =
      (execOne racing (some regs) s.mem).1 := by
    rw [step_regs_self, hregs]
    rfl
  have hother : ∀ x, x ≠ i → (Interleaving.step racingFootprints.machine s i).regs x = s.regs x :=
    fun x hx => step_regs_of_ne _ s hx
  obtain ⟨hless, hkept⟩ := left_execOne regs s.mem
  rw [← hself] at hless hkept
  rw [← hregs] at hless
  refine ⟨⟨fun x h₀ h₁ => ?_, fun x regs' hregs' => ?_⟩, ?_⟩
  · have hx : x ≠ i := by
      rintro rfl
      cases hregs.symm.trans (hnone x h₀ h₁)
    rw [hother x hx, hnone x h₀ h₁]
  · by_cases hx : x = i
    · subst hx
      rw [hkept regs' hregs', hsp x regs hregs]
    · exact hsp x regs' ((hother x hx).symm.trans hregs')
  · by_cases hi₀ : i = 0
    · subst hi₀
      rw [hother 1 one_ne_zero]
      exact Nat.add_lt_add_right hless _
    · have hi₁ : i = 1 := by
        by_contra hi₁
        cases hregs.symm.trans (hnone i hi₀ hi₁)
      subst hi₁
      rw [hother 0 zero_ne_one]
      exact Nat.add_lt_add_left hless _

theorem racing_launch : Racing (launch racers racersStart) := by
  refine ⟨fun x h₀ h₁ => if_neg fun hx => ?_, fun x regs hregs => ?_⟩
  · rcases List.mem_pair.mp hx with rfl | rfl
    · exact h₀ rfl
    · exact h₁ rfl
  · change (if x ∈ racers.threads then _ else _) = _ at hregs
    split at hregs
    · obtain rfl := Option.some.inj hregs
      rfl
    · cases hregs

/-- The two functions end, and exit with their stack pointers where they were. -/
theorem racers_halts : Halts racingFootprints racersStart.threads (launch racers racersStart) where
  halting := halting_of_measure (fun s => left (s.regs 0) + left (s.regs 1)) (fun _ _ h hi => h.step hi)
    racing_launch
  stack σ hσ x regs regs' hregs hfetch := by
    have hsp := (run_invariant (fun s i (h : Racing s) hi => (h.step hi).1) racing_launch hσ).2 x regs hregs
    have hregs' : regs' REGS_SP = regs REGS_SP := by
      rcases racing_cases regs with ⟨-, h⟩ | ⟨-, h⟩ | ⟨-, -, h⟩
      · cases (h _).symm.trans hfetch
      · cases (h _).symm.trans hfetch
      · cases (h _).symm.trans hfetch
        rfl
    have hfits : (racersStart.threads x).stack_start ≤ (racersStart.threads x).stack_end :=
      (SerialReference.blocks_spec x).1
    simp only [check_sp, hregs', hsp, if_neg (BitVec.not_lt.mpr hfits), BitVec.lt_irrefl, if_false]

theorem racers_stacks : ∀ th ∈ racers.threads, check_sp (refreshed racing (racersStart.threads th)) = .ok () := by
  decide

/-- A schedule with three context switches. -/
theorem run_ends_racers : ∃ fuel t τ,
    racers.execute fuel ⟨[1, 2, 1, 2], [1, 1, 1], 3, 2, false⟩ racersStart = .ok (.finished t) ∧
    Complete racingFootprints.machine (launch racers racersStart) τ ∧
    (Interleaving.run racingFootprints.machine (launch racers racersStart) τ).mem = t.mem ∧
    preemptions (trace racingFootprints.machine (launch racers racersStart) τ) =
      t.ctx_switch_status.ctx_switch := by
  refine run_ends racers racingFootprints racing_moves racersStart racersBuilt racers_stacks racers_halts _
    ⟨rfl, rfl, fun t ht => ?_, by decide⟩ (by decide)
  have hone : t = 1 ∨ t = 2 := by
    simp at ht
    omega
  rcases hone with rfl | rfl
  · exact ⟨0, List.mem_cons_self, rfl⟩
  · exact ⟨1, List.mem_cons_of_mem 0 List.mem_cons_self, rfl⟩

end Racers

end EquivChecker.RunInterleaving
