import EquivChecker.Exploration
import EquivChecker.RunInterleaving

/-!
# Every iteration runs an interleaving

An iteration of `run_interleavings` that ends has run an interleaving of the functions from their
first instructions to their exits. It left functions only after touches of shared memory or at their
exits, and has counted its preemptions.
-/

namespace EquivChecker.RunInterleaving

open Interleaving Checker SwitchPoints Interleaver.Setup

abbrev Setup := Interleaver.Setup

/-- The functions before their first instructions, on the memory that `init` makes. -/
def launch (u : Setup) (s : Checker (List ℕ)) : Config ℕ (Option Regs) Addr (BitVec 8) where
  regs x := if x ∈ u.threads then some (equiv_regs_init u.platform (s.threads x)) else none
  mem := u.init s.mem

/-- The threads that `init_threads` has built, and a queue that does not hold them yet. -/
structure Built (u : Setup) (s : Checker (List ℕ)) : Prop where
  runq : s.equiv_runq = []
  distinct : (u.threads.map fun th => (s.threads th).tid).Nodup
  allocated : u.threads.length ≤ s.allocated
  entry : ∀ th ∈ u.threads, (s.threads th).fn ≠ 0

section Plans
variable {tid : ℕ → ℕ} {ths : List ℕ} {σ : Schedule} {th c : ℕ}

/-- A schedule of the threads has a plan. -/
theorem exists_plans (htids : σ.n_ctx_switches < σ.tids.length)
    (hcounts : σ.n_ctx_switches ≤ σ.instr_counts.length) (hdrawn : ∀ t ∈ σ.tids, ∃ th ∈ ths, tid th = t)
    (hadjacent : σ.tids.IsChain (· ≠ ·)) (hpos : ∀ m ∈ σ.instr_counts, 0 < m) (hc : c ≤ σ.n_ctx_switches)
    (hth : σ.tids[c]? = some (tid th)) : ∃ plan, Plans tid ths σ th c 0 plan := by
  obtain ⟨d, hd⟩ := Nat.exists_eq_add_of_le hc
  induction d generalizing c th with
  | zero => exact ⟨[], .done (by omega)⟩
  | succ d ih =>
    have hlt : c < σ.instr_counts.length := by omega
    have hlt' : c + 1 < σ.tids.length := by omega
    obtain ⟨next, hmem, htid⟩ := hdrawn _ (List.getElem_mem hlt')
    have hnext : σ.tids[c + 1]? = some (tid next) := by
      rw [List.getElem?_eq_getElem hlt', htid]
    obtain ⟨plan, hplan⟩ := ih (by omega) hnext (by omega)
    have hcount : σ.instr_counts[c]? = some (0 + σ.instr_counts[c]) := by
      rw [Nat.zero_add, List.getElem?_eq_getElem hlt]
    have hne : next ≠ th := by
      rintro rfl
      have hadj := List.isChain_iff_getElem.mp hadjacent c hlt'
      rw [List.getElem?_eq_getElem (Nat.lt_of_succ_lt hlt')] at hth
      exact hadj ((Option.some.inj hth).trans htid)
    exact ⟨_, .switch (by omega) (hpos _ (List.getElem_mem hlt)) hcount hnext hne hmem hplan⟩

theorem exists_plans_of_fits (hfits : σ.Fits tid ths) (hpos : ∀ m ∈ σ.instr_counts, 0 < m)
    (hth : σ.tids[0]? = some (tid th)) : ∃ plan, Plans tid ths σ th 0 0 plan := by
  refine exists_plans ?_ hfits.counts_length.ge hfits.drawn hfits.adjacent hpos (Nat.zero_le _) hth
  rw [hfits.tids_length]
  exact Nat.lt_succ_self _

end Plans

section Runs
variable {u : Setup} {fp : Footprints u.platform} {s t v : Checker (List ℕ)} {σ : Schedule} {i : ℕ}
  {plan : List (ℕ × ℕ)} {l r : List ℕ} {fuel : ℕ}

theorem Built.nodup (h : Built u s) : u.threads.Nodup := List.Nodup.of_map _ h.distinct

theorem entered_regs {th : ℕ} (hth : th ∈ u.threads) :
    ((u.entered σ s).threads th).regs = equiv_regs_init u.platform (s.threads th) := by
  simp only [entered, refreshAll, if_pos hth]
  rfl

theorem entered_tid (σ : Schedule) (th : ℕ) : ((u.entered σ s).threads th).tid = (s.threads th).tid := by
  simp only [entered, refreshAll]
  split <;> rfl

/-- The first thread of the schedule has been taken out of the queue. -/
def first (u : Setup) (σ : Schedule) (s : Checker (List ℕ)) (i : ℕ) (q : List ℕ) : Checker (List ℕ) :=
  { u.entered σ s with
    equiv_runq := q, cur_thread := some i, mismatch := 0, regs := ((u.entered σ s).threads i).regs }

theorem config_first (hq : u.threads.reverse = l ++ i :: r) :
    config (first u σ s i (r ++ l)) = launch u s := by
  have hmem : ∀ x, x ∈ u.threads ↔ x = i ∨ x ∈ r ++ l := by
    intro x
    rw [← List.mem_reverse, hq]
    simp only [List.mem_append, List.mem_cons]
    tauto
  rw [config, launch]
  congr 1
  funext x
  change (if some i = some x then some ((u.entered σ s).threads i).regs
    else if x ∈ r ++ l then some ((u.entered σ s).threads x).regs else none) = _
  by_cases hx : x = i
  · subst hx
    rw [if_pos rfl, if_pos ((hmem x).mpr (.inl rfl)), entered_regs ((hmem x).mpr (.inl rfl))]
  · rw [if_neg (fun heq => hx (Option.some.inj heq).symm)]
    by_cases hxq : x ∈ r ++ l
    · rw [if_pos hxq, if_pos ((hmem x).mpr (.inr hxq)), entered_regs ((hmem x).mpr (.inr hxq))]
    · rw [if_neg hxq, if_neg fun hin => hxq (((hmem x).mp hin).resolve_left hx)]

/-- A thread of the queue that is entered with is found. -/
theorem Built.retrieves (h : Built u s) (σ : Schedule) (hq : u.threads.reverse = l ++ i :: r) :
    retrieve_tid_from_queue (s.threads i).tid (u.entered σ s) =
      .ok (i, { u.entered σ s with equiv_runq := r ++ l }) := by
  have hrunq : (u.entered σ s).equiv_runq = l ++ i :: r := by
    change u.threads.reverse ++ s.equiv_runq = _
    rw [h.runq, List.append_nil, hq]
  have hdistinct : ((u.entered σ s).equiv_runq.map fun th => ((u.entered σ s).threads th).tid).Nodup := by
    simp only [entered_tid, hrunq]
    rw [← hq, List.map_reverse, List.nodup_reverse]
    exact h.distinct
  have hlength : (u.entered σ s).equiv_runq.length ≤ (u.entered σ s).allocated := by
    rw [hrunq, ← hq, List.length_reverse]
    exact h.allocated
  have hfound := retrieve_tid_from_queue_eq hrunq hdistinct hlength
  rwa [entered_tid] at hfound

theorem Launched.eq_first (h : Built u s) (hv : u.Launched σ s v) (hq : u.threads.reverse = l ++ i :: r)
    (hfirst : σ.tids[0]? = some (s.threads i).tid) : v = first u σ s i (r ++ l) := by
  obtain ⟨-, tid, th, q, htid, hth, rfl⟩ := hv
  have hfound := h.retrieves σ hq
  obtain rfl := Option.some.inj (hfirst.symm.trans htid)
  obtain ⟨rfl, hqueue⟩ := Prod.mk.inj (Except.ok.inj (hth.symm.trans hfound))
  obtain rfl : q = r ++ l := congrArg equiv_runq hqueue
  rfl

theorem queue_perm (hq : u.threads.reverse = l ++ i :: r) : (i :: (r ++ l)).Perm u.threads := by
  refine List.Perm.trans ?_ (List.reverse_perm u.threads)
  rw [hq]
  exact (List.Perm.cons i List.perm_append_comm).trans List.perm_middle.symm

/-- The first instruction raises a mismatch fault, which only saves the registers. -/
theorem at_first (h : Built u s) (hq : u.threads.reverse = l ++ i :: r)
    (hplans : Plans (fun th => (s.threads th).tid) u.threads σ i 0 0 plan)
    (hv : prefetch (first u σ s i (r ++ l)) = .ok v) :
    At (fun th => (s.threads th).tid) u.threads u.shared_memory v (r ++ l) i plan ∧
      config v = launch u s ∧ v.ctx_switch_status = ⟨0, 0, false, false⟩ := by
  have hall := queue_perm hq
  have hin : i ∈ u.threads := hall.mem_iff.mp List.mem_cons_self
  have hpc : (first u σ s i (r ++ l)).regs REGS_PC ≠ (first u σ s i (r ++ l)).mismatch := by
    change ((u.entered σ s).threads i).regs REGS_PC ≠ 0
    rw [entered_regs hin]
    exact h.entry i hin
  rw [prefetch, if_neg hpc] at hv
  obtain ⟨w, hw, hv⟩ := bind_ok_iff.mp hv
  cases hv
  cases equiv_hash_handler_iff.mp hw with
  | counted _ hmark => cases hmark
  | switched _ hmark => cases hmark
  | @unmarked th hth _ =>
    obtain rfl : i = th := Option.some.inj hth
    have hconfig : config (saved i (first u σ s i (r ++ l))) = launch u s :=
      (config_saved hth).trans (config_first hq)
    have hstatus := saved_ctx_switch_status i (first u σ s i (r ++ l))
    refine ⟨⟨(saved_cur_thread i _).trans hth, saved_equiv_runq i _, hall.nodup_iff.mpr h.nodup,
      congrArg CtxSwitchStatus.do_instr_count hstatus, .inr ⟨σ, ?_⟩⟩, hconfig, hstatus⟩
    have hplans' : Plans (fun th => (s.threads th).tid) u.threads σ i
        (saved i (first u σ s i (r ++ l))).ctx_switch_status.ctx_switch
        (saved i (first u σ s i (r ++ l))).ctx_switch_status.instr_count plan := by
      rw [hstatus]
      exact hplans
    exact {
      schedule := saved_schedule i _
      plans := hplans'
      all := hall
      distinct := h.distinct
      tids := fun x => (saved_tid i x (first u σ s i (r ++ l))).trans (entered_tid σ x)
      allocated := h.allocated.trans_eq (saved_allocated i (first u σ s i (r ++ l))).symm
      shared_memory := saved_shared_memory i _
      enabled := by rw [saved_eq]; rfl
      armed := by rw [saved_eq]; rfl
      touch_handler := by rw [saved_eq]; rfl
      mismatch := rfl }

/-- An iteration that ends has run what its schedule prescribes. -/
theorem execute_obeys (fp : Footprints u.platform) (hmoves : Moves u.platform) (h : Built u s)
    (hq : u.threads.reverse = l ++ i :: r) (hfirst : σ.tids[0]? = some (s.threads i).tid)
    (hplans : Plans (fun th => (s.threads th).tid) u.threads σ i 0 0 plan)
    (hrun : u.execute fuel σ s = .ok (.finished t)) : ∃ τ n,
      Obeys fp.machine (u.shared_memory : Set Addr) (r ++ l) i plan (launch u s) τ n ∧
      (Interleaving.run fp.machine (launch u s) τ).mem = t.mem ∧
      t.ctx_switch_status.ctx_switch = n ∧ t.ctx_switch_status.yielded = false := by
  obtain ⟨v, hv, hsteps⟩ := execute_iff.mp hrun
  obtain rfl := Launched.eq_first h hv hq hfirst
  have hfuel : ∃ w, prefetch (first u σ s i (r ++ l)) = .ok w := by
    cases fuel with
    | zero => cases hsteps
    | succ fuel =>
      obtain ⟨_, hr, -⟩ := bind_ok_iff.mp hsteps
      obtain ⟨w, hw, -⟩ := bind_ok_iff.mp hr
      exact ⟨w, hw⟩
  obtain ⟨w, hw⟩ := hfuel
  obtain ⟨hat, hconfig, hstatus⟩ := at_first h hq hplans hw
  obtain ⟨τ, n, hobeys, hmem, hctx, hyielded⟩ := hat.run fp hmoves hw hsteps
  rw [hconfig] at hobeys hmem
  rw [hstatus] at hctx hyielded
  exact ⟨τ, n, hobeys, hmem, hctx.trans (Nat.zero_add n), hyielded⟩

theorem alive_launch (fp : Footprints u.platform) : Alive fp.machine (launch u s) u.threads := by
  intro x
  change Option.isNone (if x ∈ u.threads then _ else _) = false ↔ _
  split <;> simp [*]

/-- Every run of a schedule that ends is an interleaving of the functions, left only where the handlers
can preempt and where a function exits, with as many preemptions as context switches were counted. -/
theorem run_is_interleaving (u : Setup) (fp : Footprints u.platform) (hmoves : Moves u.platform)
    (s : Checker (List ℕ)) (h : Built u s) (σ : Schedule)
    (hfits : σ.Fits (fun th => (s.threads th).tid) u.threads) (hpos : ∀ m ∈ σ.instr_counts, 0 < m)
    (fuel : ℕ) (t : Checker (List ℕ)) (hrun : u.execute fuel σ s = .ok (.finished t)) :
    ∃ τ, Complete fp.machine (launch u s) τ ∧
      (Interleaving.run fp.machine (launch u s) τ).mem = t.mem ∧
      LeftAtSwitchPoints u.shared_memory (trace fp.machine (launch u s) τ) ∧
      preemptions (trace fp.machine (launch u s) τ) = t.ctx_switch_status.ctx_switch := by
  have hlength : 0 < σ.tids.length := by
    rw [hfits.tids_length]
    exact Nat.succ_pos _
  obtain ⟨i, hi, htid⟩ := hfits.drawn _ (List.getElem_mem hlength)
  have hfirst : σ.tids[0]? = some (s.threads i).tid := by
    rw [List.getElem?_eq_getElem hlength, ← htid]
  obtain ⟨plan, hplans⟩ := exists_plans_of_fits hfits hpos hfirst
  obtain ⟨l, r, hq⟩ := List.append_of_mem (List.mem_reverse.mpr hi)
  have hall : (i :: (r ++ l)).Perm u.threads := queue_perm hq
  obtain ⟨τ, n, hobeys, hmem, hctx, -⟩ := execute_obeys fp hmoves h hq hfirst hplans hrun
  have hnodup : (i :: (r ++ l)).Nodup := hall.nodup_iff.mpr h.nodup
  have hcomplete := hobeys.complete hnodup ((alive_launch fp).perm hall.symm)
  refine ⟨τ, hcomplete, hmem, ?_, ?_⟩
  · exact leftAtSwitchPoints_of_reduced (fun e he => exists_touched fp he) hobeys.reduced
  · rw [hobeys.preemptions hnodup, hctx]

end Runs

section Racers

def loaded (regs : Regs) (mem : Mem) : Regs :=
  Function.update (Function.update (Function.update regs 1 ((mem 4096).setWidth 32)) 2 1) REGS_PC
    (regs REGS_PC + 4)

def stored (regs : Regs) : Regs := Function.update (Function.update regs 2 2) REGS_PC (regs REGS_PC + 4)

/-- Functions that increment the byte at 4096: a load, a store, and the exit. -/
def racing : Platform where
  fetch regs mem :=
    if regs 2 = 0 then .exec {4096} false (loaded regs mem) mem
    else if regs 2 = 1 then .exec {4096} true (stored regs)
      (Function.update mem 4096 ((regs 1).setWidth 8 + 1))
    else .swi (Function.update regs 0 EQUIV_EXIT)
  user_cpsr := 16
  sys_equiv_exit := 0x8000
  kmalloc_aligned k := 0x100000 + BitVec.ofNat 32 (k % 256) <<< 12

/-- Two of them, to be run with one context switch. -/
def racers : Setup where
  platform := racing
  init mem := Function.update mem 4096 0
  shared_memory := {4096}
  threads := [0, 1]
  ncs := 1
  report := false

def racersStart : Checker (List ℕ) :=
  { writersStart with
    threads := fun k =>
      { regs := fun _ => 0, tid := k + 1, fn := 0x9000, args := 0
        stack_start := racing.kmalloc_aligned k, stack_end := racing.kmalloc_aligned k + stack_size } }

theorem racing_load {regs : Regs} (h : regs 2 = 0) (mem : Mem) :
    racing.fetch regs mem = .exec {4096} false (loaded regs mem) mem := if_pos h

theorem racing_store {regs : Regs} (h : regs 2 = 1) (mem : Mem) : racing.fetch regs mem =
    .exec {4096} true (stored regs) (Function.update mem 4096 ((regs 1).setWidth 8 + 1)) := by
  have hne : regs 2 ≠ 0 := by
    rw [h]
    decide
  exact (if_neg hne).trans (if_pos h)

theorem racing_exit {regs : Regs} (h₀ : regs 2 ≠ 0) (h₁ : regs 2 ≠ 1) (mem : Mem) :
    racing.fetch regs mem = .swi (Function.update regs 0 EQUIV_EXIT) := (if_neg h₀).trans (if_neg h₁)

/-- The three kinds of instructions. -/
theorem racing_cases (regs : Regs) :
    regs 2 = 0 ∧ (∀ mem, racing.fetch regs mem = .exec {4096} false (loaded regs mem) mem) ∨
    regs 2 = 1 ∧ (∀ mem, racing.fetch regs mem =
      .exec {4096} true (stored regs) (Function.update mem 4096 ((regs 1).setWidth 8 + 1))) ∨
    regs 2 ≠ 0 ∧ regs 2 ≠ 1 ∧ ∀ mem, racing.fetch regs mem = .swi (Function.update regs 0 EQUIV_EXIT) := by
  by_cases h₀ : regs 2 = 0
  · exact .inl ⟨h₀, racing_load h₀⟩
  · by_cases h₁ : regs 2 = 1
    · exact .inr (.inl ⟨h₁, racing_store h₁⟩)
    · exact .inr (.inr ⟨h₀, h₁, racing_exit h₀ h₁⟩)

theorem racing_moves : Moves racing := by
  have hne : ∀ pc : Word, pc + 4 ≠ pc := fun pc => by bv_omega
  intro regs mem touched w regs' mem' hfetch
  rcases racing_cases regs with ⟨-, h⟩ | ⟨-, h⟩ | ⟨-, -, h⟩
  · cases (h mem).symm.trans hfetch
    exact hne _
  · cases (h mem).symm.trans hfetch
    exact hne _
  · cases (h mem).symm.trans hfetch

theorem racing_readsOnly : racing.ReadsOnly {4096} := by
  intro regs mem mem' hmem
  have hsame : mem' 4096 = mem 4096 := hmem 4096 rfl
  rcases racing_cases regs with ⟨-, h⟩ | ⟨-, h⟩ | ⟨-, -, h⟩
  · rw [h, h, loaded, loaded, hsame]
    exact .exec hmem
  · rw [h, h]
    refine .exec fun a ha => ?_
    rw [Set.mem_singleton_iff.mp ha, Function.update_self, Function.update_self]
  · rw [h, h]
    exact .swi

def racingFootprints : Footprints racing where
  reads regs _ := {a | a = 4096 ∧ regs 2 = 0}
  writes regs _ := {a | a = 4096 ∧ regs 2 = 1}
  trap {regs mem regs'} hfetch := by
    rcases racing_cases regs with ⟨-, h⟩ | ⟨-, h⟩ | ⟨h₀, h₁, h⟩
    · cases (h mem).symm.trans hfetch
    · cases (h mem).symm.trans hfetch
    · cases (h mem).symm.trans hfetch
      exact ⟨rfl, Set.eq_empty_of_forall_notMem fun a ha => h₀ ha.2,
        Set.eq_empty_of_forall_notMem fun a ha => h₁ ha.2⟩
  touched {regs mem touched w regs' mem'} hfetch := by
    rcases racing_cases regs with ⟨h₀, h⟩ | ⟨h₁, h⟩ | ⟨-, -, h⟩
    · cases (h mem).symm.trans hfetch
      ext a
      simp [h₀]
    · cases (h mem).symm.trans hfetch
      ext a
      simp [h₁]
    · cases (h mem).symm.trans hfetch
  frame {regs mem touched w regs' mem'} hfetch a ha := by
    rcases racing_cases regs with ⟨-, h⟩ | ⟨h₁, h⟩ | ⟨-, -, h⟩
    · cases (h mem).symm.trans hfetch
      rfl
    · cases (h mem).symm.trans hfetch
      exact Function.update_of_ne (fun heq => ha ⟨heq, h₁⟩) _ _
    · cases (h mem).symm.trans hfetch
  trap_locality {regs mem mem' regs'} _ hfetch := by
    rcases racing_cases regs with ⟨-, h⟩ | ⟨-, h⟩ | ⟨-, -, h⟩
    · cases (h mem).symm.trans hfetch
    · cases (h mem).symm.trans hfetch
    · rw [h mem', ← h mem, hfetch]
  exec_locality {regs mem mem' touched w regs' mem₁} hmem hfetch := by
    rcases racing_cases regs with ⟨h₀, h⟩ | ⟨h₁, h⟩ | ⟨-, -, h⟩
    · cases (h mem).symm.trans hfetch
      have hsame : mem' 4096 = mem 4096 := hmem 4096 ⟨rfl, h₀⟩
      exact ⟨mem', by rw [h mem', loaded, loaded, hsame], rfl, rfl, fun a ha => by cases h₀.symm.trans ha.2⟩
    · cases (h mem).symm.trans hfetch
      refine ⟨_, h mem', rfl, rfl, fun a ha => ?_⟩
      rw [ha.1, Function.update_self, Function.update_self]
    · cases (h mem).symm.trans hfetch

theorem racersBuilt : Built racers racersStart := by
  refine ⟨rfl, by decide, by decide, fun th _ => ?_⟩
  exact show (0x9000 : Word) ≠ 0 by decide

/-- The run ends with `n` context switches, and with the byte `v` at 4096. -/
def endsAs (n : ℕ) (v : BitVec 8) : Except Fault (Progress (Checker (List ℕ))) → Bool
  | .ok (.finished t) => t.ctx_switch_status.ctx_switch == n && t.mem 4096 == v
  | _ => false

theorem exists_of_endsAs {n : ℕ} {v : BitVec 8} {r : Except Fault (Progress (Checker (List ℕ)))}
    (h : endsAs n v r = true) :
    ∃ t, r = .ok (.finished t) ∧ t.ctx_switch_status.ctx_switch = n ∧ t.mem 4096 = v := by
  unfold endsAs at h
  split at h
  · rename_i t
    rw [Bool.and_eq_true, beq_iff_eq, beq_iff_eq] at h
    exact ⟨t, rfl, h.1, h.2⟩
  · cases h

theorem racers_lost : ∃ t, racers.execute 12 (racers.schedule [1, 2] [1]) racersStart = .ok (.finished t) ∧
    t.ctx_switch_status.ctx_switch = 1 ∧ t.mem 4096 = 1 := exists_of_endsAs (by decide +kernel)

/-- The first function is preempted between its load and its store, and an increment is lost. -/
theorem run_is_interleaving_lost : ∃ τ, Complete racingFootprints.machine (launch racers racersStart) τ ∧
    (Interleaving.run racingFootprints.machine (launch racers racersStart) τ).mem 4096 = 1 ∧
    LeftAtSwitchPoints racers.shared_memory (trace racingFootprints.machine (launch racers racersStart) τ) ∧
    preemptions (trace racingFootprints.machine (launch racers racersStart) τ) = 1 := by
  obtain ⟨t, hrun, hctx, hmem⟩ := racers_lost
  have hfits : (racers.schedule [1, 2] [1]).Fits (fun th => (racersStart.threads th).tid) racers.threads := by
    refine ⟨rfl, rfl, fun t ht => ?_, by decide⟩
    rcases List.mem_pair.mp ht with rfl | rfl
    · exact ⟨0, List.mem_cons_self, rfl⟩
    · exact ⟨1, List.mem_cons_of_mem 0 List.mem_cons_self, rfl⟩
  obtain ⟨τ, hτ, hsame, hleft, hpre⟩ := run_is_interleaving racers racingFootprints racing_moves racersStart
    racersBuilt (racers.schedule [1, 2] [1]) hfits (by decide) 12 t hrun
  exact ⟨τ, hτ, (congrFun hsame 4096).trans hmem, hleft, hpre.trans hctx⟩

end Racers

end EquivChecker.RunInterleaving
