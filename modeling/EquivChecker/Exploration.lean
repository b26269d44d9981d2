import EquivChecker.Lockstep
import EquivChecker.ThreadOrders

/-!
# The main loop tries every schedule whose switches happen

The runs of one thread order are driven by an odometer whose digit limits are the
numbers of shared accesses that the threads make. Two runs whose counts agree up to
the first switch that did not happen go in lockstep, so a count that is too large
stays too large; and a count that is reached is at most the length of the run whose
schedule ends before it. Neither depends on what earlier runs left in memory.
-/

namespace EquivChecker

open Checker

/-- Whatever the memory was, it is the same in `D` afterwards. -/
def Restores (init : Mem → Mem) (D : Set Addr) : Prop :=
  ∀ mem mem', ∀ a ∈ D, init mem' a = init mem a

namespace Checker
variable {p : Platform} {s t : Checker (List ℕ)}

/-- A thread after `equiv_refresh`. -/
def refreshed (p : Platform) (t : EqTh) : EqTh := { t with regs := equiv_regs_init p t }

theorem refreshed_congr {t t' : EqTh} (h : t'.frame = t.frame) : refreshed p t' = refreshed p t := by
  obtain ⟨regs, tid, fn, args, start, stop⟩ := t
  obtain ⟨regs', tid', fn', args', start', stop'⟩ := t'
  simp only [EqTh.frame, EqTh.mk.injEq] at h
  obtain ⟨-, rfl, rfl, rfl, rfl, rfl⟩ := h
  rfl

@[simp] theorem refreshed_refreshed (t : EqTh) : refreshed p (refreshed p t) = refreshed p t :=
  refreshed_congr rfl

@[simp] theorem refreshed_frame (t : EqTh) : (refreshed p t).frame = t.frame := rfl

theorem equiv_refresh_iff {th : ℕ} : equiv_refresh p th s = .ok t ↔
    check_sp (refreshed p (s.threads th)) = .ok () ∧ t = { s with
      threads := Function.update s.threads th (refreshed p (s.threads th))
      equiv_runq := th :: s.equiv_runq } := by
  constructor
  · intro h
    obtain ⟨u, hu, h⟩ := bind_ok_iff.mp h
    simp only [Except.ok.injEq] at h
    exact ⟨hu, h.symm⟩
  · rintro ⟨hu, rfl⟩
    exact bind_ok_iff.mpr ⟨(), hu, rfl⟩

/-- The threads after the given ones are refreshed. -/
def refreshAll (p : Platform) (ths : List ℕ) (threads : ℕ → EqTh) : ℕ → EqTh :=
  fun th => if th ∈ ths then refreshed p (threads th) else threads th

theorem reset_threads_iff {ths : List ℕ} : Interleaver.reset_threads p ths s = .ok t ↔
    (∀ th ∈ ths, check_sp (refreshed p (s.threads th)) = .ok ()) ∧ t = { s with
      threads := refreshAll p ths s.threads
      equiv_runq := ths.reverse ++ s.equiv_runq } := by
  induction ths generalizing s with
  | nil =>
    have hid : refreshAll p [] s.threads = s.threads := rfl
    simp [Interleaver.reset_threads, hid, eq_comm]
  | cons th ths ih =>
    have hthreads : ∀ x, refreshed p (Function.update s.threads th (refreshed p (s.threads th)) x) =
        refreshed p (s.threads x) := by
      intro x
      by_cases hx : x = th
      · subst hx
        simp
      · simp [hx]
    have hall : refreshAll p ths (Function.update s.threads th (refreshed p (s.threads th))) =
        refreshAll p (th :: ths) s.threads := by
      funext x
      by_cases hx : x = th
      · subst hx
        simp [refreshAll]
      · simp [refreshAll, hx]
    constructor
    · intro h
      obtain ⟨v, hv, h⟩ := bind_ok_iff.mp h
      obtain ⟨hu, rfl⟩ := equiv_refresh_iff.mp hv
      obtain ⟨hsp, rfl⟩ := ih.mp h
      simp only [hthreads] at hsp
      refine ⟨fun x hx => ?_, by simp [hall]⟩
      rcases List.mem_cons.mp hx with rfl | hx
      · exact hu
      · exact hsp x hx
    · rintro ⟨hsp, rfl⟩
      refine bind_ok_iff.mpr ⟨_, equiv_refresh_iff.mpr ⟨hsp th List.mem_cons_self, rfl⟩, ih.mpr ⟨?_, ?_⟩⟩
      · intro x hx
        simp only [hthreads]
        exact hsp x (List.mem_cons_of_mem th hx)
      · simp [hall]

/-- The checker between two iterations: what the next one depends on is as at `b`. -/
structure Ready (ths : List ℕ) (b s : Checker (List ℕ)) : Prop where
  runq : s.equiv_runq = []
  armed : s.armed = false
  allocated : s.allocated = b.allocated
  frame : ∀ th, (s.threads th).frame = (b.threads th).frame
  others : ∀ th, th ∉ ths → s.threads th = b.threads th

end Checker

namespace Interleaver.Setup
variable {u : Setup} {b s t v : Checker (List ℕ)} {σ σ' : Schedule} {D : Set Addr} {k : ℕ} {E : Prop}

/-- The checker when `equiv_run` is called. -/
def entered (u : Setup) (σ : Schedule) (s : Checker (List ℕ)) : Checker (List ℕ) :=
  { s with
    mem := u.init s.mem
    threads := refreshAll u.platform u.threads s.threads
    equiv_runq := u.threads.reverse ++ s.equiv_runq
    touch_handler := true
    schedule := some σ
    shared_memory := some u.shared_memory
    ctx_switch_status := ⟨0, 0, false, false⟩
    rw_tracker_enabled := true }

/-- `v` is the checker at the first instruction of the run of `σ` that starts in `s`. -/
structure Launched (u : Setup) (σ : Schedule) (s v : Checker (List ℕ)) : Prop where
  check_sp : ∀ th ∈ u.threads, check_sp (refreshed u.platform (s.threads th)) = .ok ()
  first : ∃ tid th q, σ.tids[0]? = some tid ∧
    retrieve_tid_from_queue tid (u.entered σ s) = .ok (th, { u.entered σ s with equiv_runq := q }) ∧
    v = { u.entered σ s with
      equiv_runq := q, cur_thread := some th, mismatch := 0
      regs := ((u.entered σ s).threads th).regs }

theorem enter_iff : enter u.platform u.init u.shared_memory u.threads σ s = .ok t ↔
    (∀ th ∈ u.threads, Checker.check_sp (refreshed u.platform (s.threads th)) = .ok ()) ∧
      t = u.entered σ s := by
  constructor
  · intro h
    obtain ⟨w, hw, h⟩ := bind_ok_iff.mp h
    obtain ⟨hsp, rfl⟩ := reset_threads_iff.mp hw
    cases h
    exact ⟨hsp, rfl⟩
  · rintro ⟨hsp, rfl⟩
    exact bind_ok_iff.mpr ⟨_, reset_threads_iff.mpr ⟨hsp, rfl⟩, rfl⟩

theorem execute_iff {fuel : ℕ} {r : Progress (Checker (List ℕ))} :
    u.execute fuel σ s = .ok r ↔ ∃ v, u.Launched σ s v ∧ steps u.platform fuel v = .ok r := by
  constructor
  · intro h
    obtain ⟨e, he, h⟩ := bind_ok_iff.mp h
    obtain ⟨hsp, rfl⟩ := enter_iff.mp he
    obtain ⟨v, hv, h⟩ := bind_ok_iff.mp h
    obtain ⟨tid, htid, hv⟩ := bind_ok_iff.mp hv
    obtain ⟨⟨th, w⟩, hth, hv⟩ := bind_ok_iff.mp hv
    obtain ⟨q, rfl, -, -⟩ := retrieve_tid_from_queue_spec hth
    cases hv
    exact ⟨_, ⟨hsp, tid, th, q, readAt_ok_iff.mp htid, hth, rfl⟩, h⟩
  · rintro ⟨v, ⟨hsp, tid, th, q, htid, hth, rfl⟩, h⟩
    refine bind_ok_iff.mpr ⟨_, enter_iff.mpr ⟨hsp, rfl⟩, bind_ok_iff.mpr ⟨_, ?_, h⟩⟩
    exact bind_ok_iff.mpr ⟨tid, readAt_ok_iff.mpr htid, bind_ok_iff.mpr ⟨_, hth, rfl⟩⟩

theorem ready_self (hq : b.equiv_runq = []) (harmed : b.armed = false) : Ready u.threads b b :=
  ⟨hq, harmed, rfl, fun _ => rfl, fun _ _ => rfl⟩

theorem ready_threads (h : Ready u.threads b s) (hq : b.equiv_runq = []) :
    (u.entered σ' s).threads = (u.entered σ b).threads ∧
      (u.entered σ' s).equiv_runq = (u.entered σ b).equiv_runq := by
  constructor
  · funext th
    by_cases hth : th ∈ u.threads
    · simp [entered, refreshAll, hth, refreshed_congr (h.frame th)]
    · simp [entered, refreshAll, hth, h.others th hth]
  · simp [entered, h.runq, hq]

/-- The runs of related schedules start at the same point, whatever earlier runs did. -/
theorem Launched.lockstep (hv : u.Launched σ b v) (h : Ready u.threads b s)
    (hb : Ready u.threads b b) (hinit : Restores u.init D) (hf : σ.Follows k E σ') :
    ∃ v', u.Launched σ' s v' ∧ Lockstep D k E v v' := by
  obtain ⟨hsp, tid, th, q, htid, hth, rfl⟩ := hv
  have hready : (u.entered σ' s).threads = (u.entered σ b).threads ∧
      (u.entered σ' s).equiv_runq = (u.entered σ b).equiv_runq := ready_threads h hb.runq
  obtain ⟨hthreads, hrunq⟩ := hready
  refine ⟨_, ⟨?_, tid, th, q, by rw [hf.tids, htid], ?_, rfl⟩, ?_⟩
  · intro x hx
    rw [refreshed_congr (h.frame x)]
    exact hsp x hx
  · exact retrieve_tid_from_queue_congr hth hrunq hthreads h.allocated
  · exact {
      runq := rfl
      threads := hthreads
      allocated := h.allocated
      cur_thread := rfl
      shared_memory := rfl
      rw_tracker_enabled := rfl
      armed := h.armed.trans hb.armed.symm
      touch_handler := rfl
      mismatch := rfl
      regs := by rw [hthreads]
      mem := hinit b.mem s.mem
      ctx_switch := rfl
      le := Nat.zero_le k
      counting := fun _ => ⟨rfl, rfl⟩
      silent := fun _ _ => rfl
      schedule := .inr ⟨σ, σ', rfl, rfl, hf⟩ }

/-- The run of the schedule from `s` ends after `n` context switches. -/
def Switches (u : Setup) (s : Checker (List ℕ)) (σ : Schedule) (n : ℕ) : Prop :=
  ∃ fuel t, u.execute fuel σ s = .ok (.finished t) ∧ t.ctx_switch_status.ctx_switch = n

theorem execute_of_le {fuel fuel' : ℕ} (h : u.execute fuel σ s = .ok (.finished t))
    (hle : fuel ≤ fuel') : u.execute fuel' σ s = .ok (.finished t) := by
  obtain ⟨v, hv, h⟩ := execute_iff.mp h
  exact execute_iff.mpr ⟨v, hv, steps_of_le h hle⟩

theorem Switches.unique {n n' : ℕ} (h : u.Switches s σ n) (h' : u.Switches s σ n') : n = n' := by
  obtain ⟨fuel, t, ht, rfl⟩ := h
  obtain ⟨fuel', t', ht', rfl⟩ := h'
  have heq := (execute_of_le ht (le_max_left fuel fuel')).symm.trans
    (execute_of_le ht' (le_max_right fuel fuel'))
  cases heq
  rfl

/-- A run that makes no switch after the `k`-th determines the runs that follow it. -/
theorem execute_follows {fuel : ℕ} (hreads : u.platform.ReadsOnly D) (hinit : Restores u.init D)
    (hb : Ready u.threads b b) (h : Ready u.threads b s) (hf : σ.Follows k E σ')
    (hrun : u.execute fuel σ b = .ok (.finished t)) (hk : t.ctx_switch_status.ctx_switch ≤ k) :
    ∃ t', u.execute fuel σ' s = .ok (.finished t') ∧
      t'.ctx_switch_status.ctx_switch = t.ctx_switch_status.ctx_switch := by
  obtain ⟨v, hv, hsteps⟩ := execute_iff.mp hrun
  obtain ⟨v', hv', hl⟩ := hv.lockstep h hb hinit hf
  obtain ⟨t', ht', hlt⟩ := hl.steps hreads hsteps hk
  exact ⟨t', execute_iff.mpr ⟨v', hv', ht'⟩, hlt.ctx_switch⟩

theorem Launched.status (hv : u.Launched σ s v) : v.ctx_switch_status.ctx_switch = 0 ∧
    v.ctx_switch_status.instr_count = 0 ∧ v.schedule = some σ := by
  obtain ⟨-, -, -, -, -, -, rfl⟩ := hv
  exact ⟨rfl, rfl, rfl⟩

theorem execute_le {fuel : ℕ} (h : u.execute fuel σ s = .ok (.finished t)) :
    t.ctx_switch_status.ctx_switch ≤ σ.instr_counts.length := by
  obtain ⟨v, hv, hsteps⟩ := execute_iff.mp h
  obtain ⟨hctx, -, hσ⟩ := hv.status
  refine steps_ctx_switch_le hsteps (by omega) fun τ hτ => ?_
  cases hσ.symm.trans hτ
  rfl

theorem Launched.unique {v' : Checker (List ℕ)} (h : u.Launched σ s v) (h' : u.Launched σ s v') :
    v = v' := by
  obtain ⟨-, tid, th, q, htid, hth, rfl⟩ := h
  obtain ⟨-, tid', th', q', htid', hth', rfl⟩ := h'
  cases htid.symm.trans htid'
  have heq := hth.symm.trans hth'
  simp only [Except.ok.injEq, Prod.mk.injEq] at heq
  have hq : q = q' := congrArg equiv_runq heq.2
  rw [heq.1, hq]

/-- After an iteration the next one finds what the first one found. -/
theorem ready_leave {fuel : ℕ} (h : Ready u.threads b s)
    (hrun : u.execute fuel σ s = .ok (.finished t)) : Ready u.threads b (leave t) := by
  obtain ⟨v, ⟨-, tid, th, q, -, hth, rfl⟩, hsteps⟩ := execute_iff.mp hrun
  obtain ⟨hkeep, hnil⟩ := steps_keeps hsteps
  obtain ⟨q', heq, hmem, hq⟩ := retrieve_tid_from_queue_spec hth
  have hqq : q = q' := congrArg equiv_runq heq
  subst hqq
  have hlisted : ∀ x ∈ (u.entered σ s).equiv_runq, x ∈ u.threads := by
    intro x hx
    simpa [entered, h.runq] using hx
  exact {
    runq := hnil
    armed := rfl
    allocated := hkeep.allocated.trans h.allocated
    frame := by
      intro x
      have hentered : ((u.entered σ s).threads x).frame = (s.threads x).frame := by
        simp only [entered, refreshAll]
        split <;> rfl
      exact (hkeep.frame x).trans (hentered.trans (h.frame x))
    others := by
      intro x hx
      have hentered : (u.entered σ s).threads x = s.threads x := by
        simp [entered, refreshAll, hx]
      refine (hkeep.idle x ⟨fun hm => hx (hlisted x (hq x hm)), fun hc => ?_⟩).2.trans
        (hentered.trans (h.others x hx))
      have hcur : th = x := Option.some.inj hc
      exact hx (hlisted x (hcur ▸ hmem)) }

/-- Every `equiv_run` ends: for every valid thread order, all counts, and every number of
context switches up to `ncs`. -/
def EveryRunEnds (u : Setup) (b : Checker (List ℕ)) : Prop :=
  ∀ tids instr_nums n, Order u.num_funcs (u.ncs + 1) tids → tids_valid tids →
    Odometer.Vec u.ncs instr_nums → n ≤ u.ncs →
      ∃ fuel t, u.execute fuel { u.schedule tids instr_nums with n_ctx_switches := n } b =
        .ok (.finished t)

/-- Shared accesses are the digits of an odometer. -/
theorem limits (hreads : u.platform.ReadsOnly D) (hinit : Restores u.init D)
    (hb : Ready u.threads b b) (hends : u.EveryRunEnds b) {tids : List ℕ}
    (hord : Order u.num_funcs (u.ncs + 1) tids) (hvalid : tids_valid tids) {f : List ℕ → ℕ}
    (hf : ∀ c, Odometer.Vec u.ncs c → u.Switches b (u.schedule tids c) (f c)) :
    Odometer.Limits u.ncs f where
  le := by
    intro c hc
    obtain ⟨fuel, t, ht, heq⟩ := hf c hc
    have hle := execute_le ht
    rw [heq] at hle
    simpa [schedule, hc.length] using hle
  mono := by
    intro pre rest rest' d d' hc hc' hd heq
    have hlen : pre.length < u.ncs := by
      have := hc.length
      simp at this
      omega
    have hfollows : (u.schedule tids (pre ++ d :: rest)).Follows pre.length True
        (u.schedule tids (pre ++ d' :: rest')) := {
      tids := rfl
      counts := fun j hj => by simp [schedule, List.getElem?_append_left hj]
      le := hlen.le
      goes_on := fun _ => ⟨hlen, hlen⟩
      larger := fun _ count hcount => ⟨d', by simp [schedule], by
        have hdc : d = count := by simpa [schedule] using hcount
        omega⟩
      ends := fun h => absurd trivial h }
    obtain ⟨fuel, t, ht, hctx⟩ := hf _ hc
    obtain ⟨t', ht', heq'⟩ := execute_follows hreads hinit hb hb hfollows ht (by omega)
    exact (hf _ hc').unique ⟨fuel, t', ht', by omega⟩
  bounded := by
    intro pre
    by_cases hpre : pre.length ≤ u.ncs ∧ ∀ d ∈ pre, 0 < d
    · obtain ⟨fuel, t', ht'⟩ := hends tids (pre ++ List.replicate (u.ncs - pre.length) 1) pre.length
        hord hvalid (Odometer.Vec.append_ones hpre.2 (by omega)) hpre.1
      refine ⟨fuel, ?_⟩
      intro d rest hc hgo
      have hfollows : (u.schedule tids (pre ++ d :: rest)).Follows pre.length False
          { u.schedule tids (pre ++ List.replicate (u.ncs - pre.length) 1) with
            n_ctx_switches := pre.length } := {
        tids := rfl
        counts := fun j hj => by simp [schedule, List.getElem?_append_left hj]
        le := hpre.1
        goes_on := fun h => h.elim
        larger := fun h => h.elim
        ends := fun _ => rfl }
      obtain ⟨fuel', t, ht, hctx⟩ := hf _ hc
      obtain ⟨v, hv, hsteps⟩ := execute_iff.mp ht
      obtain ⟨v', hv', hl⟩ := hv.lockstep hb hb hinit hfollows
      obtain ⟨w, hw, hsteps'⟩ := execute_iff.mp ht'
      obtain ⟨hvctx, hinstr, hσ⟩ := hv.status
      rw [hw.unique hv'] at hsteps'
      have hle := hl.count_le hreads hsteps' hsteps (by omega) (d := d) fun τ hτ => by
        cases hσ.symm.trans hτ
        simp [schedule]
      omega
    · refine ⟨0, fun {d rest} hc _ => absurd ⟨?_, hc.of_append⟩ hpre⟩
      have := hc.length
      simp at this
      omega

theorem follows_self (σ : Schedule) : σ.Follows σ.n_ctx_switches False σ :=
  ⟨rfl, fun _ _ => rfl, le_rfl, fun h => h.elim, fun h => h.elim, fun _ => rfl⟩

/-- A schedule runs as it does from `b` in every iteration. -/
theorem Switches.ready {c tids : List ℕ} {n : ℕ} (hreads : u.platform.ReadsOnly D)
    (hinit : Restores u.init D) (hb : Ready u.threads b b) (h : Ready u.threads b s)
    (hc : Odometer.Vec u.ncs c) (hrun : u.Switches b (u.schedule tids c) n) :
    u.Switches s (u.schedule tids c) n := by
  obtain ⟨fuel, t, ht, rfl⟩ := hrun
  have hle : t.ctx_switch_status.ctx_switch ≤ (u.schedule tids c).n_ctx_switches :=
    (execute_le ht).trans_eq hc.length
  obtain ⟨t', ht', heq⟩ := execute_follows hreads hinit hb h (follows_self _) ht hle
  exact ⟨fuel, t', ht', heq⟩

/-- What is recorded about one schedule. -/
def Recorded (u : Setup) (b : Checker (List ℕ)) (r : Run) : Prop :=
  Odometer.Vec u.ncs r.instr_nums ∧
    u.Switches b (u.schedule r.tids r.instr_nums) r.status.ctx_switch

/-- The rest of the loop after an iteration. -/
def goOn (u : Setup) (fuel : ℕ) (s : Checker (List ℕ)) (runs : List Run) :
    Option (List ℕ × List ℕ) → Except Fault (Progress (Explorer (List ℕ)))
  | none => .ok (.finished ⟨List.replicate (u.ncs + 1) 1, List.replicate u.ncs 1, s, runs⟩)
  | some (tids, instr_nums) => u.loop fuel ⟨tids, instr_nums, s, runs⟩

theorem loop_succ {fuel : ℕ} {tids c : List ℕ} {runs : List Run}
    (hrun : u.execute (fuel + 1) (u.schedule tids c) s = .ok (.finished t)) :
    u.loop (fuel + 1) ⟨tids, c, s, runs⟩ =
      u.next_schedule t.ctx_switch_status.ctx_switch tids c >>=
        u.goOn fuel (leave t) (runs ++ [⟨tids, c, t.ctx_switch_status, t.mem⟩]) := by
  rw [loop]
  dsimp only
  rw [hrun]
  change u.next_schedule _ _ _ >>= _ = _
  cases u.next_schedule t.ctx_switch_status.ctx_switch tids c with
  | error e => rfl
  | ok r => rcases r with _ | ⟨tids, c⟩ <;> rfl

/-- The loop follows the odometer through the schedules of one thread order. -/
theorem loop_sweep {tids c last : List ℕ} {f : List ℕ → ℕ} {L : List (List ℕ)}
    (hreads : u.platform.ReadsOnly D) (hinit : Restores u.init D) (hb : Ready u.threads b b)
    (hf : ∀ c, Odometer.Vec u.ncs c → u.Switches b (u.schedule tids c) (f c))
    (hsweep : Odometer.Sweep f 0 c L last) (hvec : ∀ c ∈ L, Odometer.Vec u.ncs c) :
    ∀ s runs, Ready u.threads b s → ∃ N t R, Ready u.threads b t ∧
      R.map (fun r => (r.tids, r.instr_nums)) = L.map (tids, ·) ∧ (∀ r ∈ R, u.Recorded b r) ∧
      ∀ fuel, N ≤ fuel → u.loop (fuel + L.length) ⟨tids, c, s, runs⟩ =
        u.next_schedule 0 tids last >>= u.goOn fuel t (runs ++ R) := by
  induction hsweep with
  | @stop c hc =>
    intro s runs hs
    have hc' := hvec c (by simp)
    obtain ⟨N, t, ht, hctx⟩ := (hf c hc').ready hreads hinit hb hs hc'
    refine ⟨N, leave t, [⟨tids, c, t.ctx_switch_status, t.mem⟩], ready_leave hs ht, rfl, ?_, ?_⟩
    · intro r hr
      rw [List.mem_singleton.mp hr]
      exact ⟨hc', hctx ▸ hf c hc'⟩
    · intro fuel hfuel
      have hrun := execute_of_le ht (by omega : N ≤ fuel + 1)
      have hzero : t.ctx_switch_status.ctx_switch = 0 := by omega
      rw [List.length_singleton, loop_succ hrun, hzero]
  | @next c L last hc tail ih =>
    intro s runs hs
    have hc' := hvec c (by simp)
    obtain ⟨N, t, ht, hctx⟩ := (hf c hc').ready hreads hinit hb hs hc'
    obtain ⟨N', t', R, ht', hkeys, hrec, hloop⟩ := ih (fun c hc => hvec c (by simp [hc])) (leave t)
      (runs ++ [⟨tids, c, t.ctx_switch_status, t.mem⟩]) (ready_leave hs ht)
    refine ⟨max N N', t', ⟨tids, c, t.ctx_switch_status, t.mem⟩ :: R, ht', by simp [hkeys], ?_, ?_⟩
    · intro r hr
      rcases List.mem_cons.mp hr with rfl | hr
      · exact ⟨hc', hctx ▸ hf c hc'⟩
      · exact hrec r hr
    · intro fuel hfuel
      have hrun := execute_of_le ht (by omega : N ≤ fuel + L.length + 1)
      have hnext : u.next_schedule (f c) tids c = .ok (some (tids, Odometer.advance (f c) c)) := by
        simp [next_schedule, hc]
      have hstep := hloop fuel (by omega)
      rw [List.append_assoc, List.singleton_append] at hstep
      rw [List.length_cons, ← Nat.add_assoc, loop_succ hrun, hctx, hnext]
      exact hstep

/-- All valid thread orders from the given one on have been tried, each with all counts for
which every switch happens, and nothing was run twice. -/
structure Explored (u : Setup) (b : Checker (List ℕ)) (from_rank : ℕ) (runs : List Run) : Prop where
  nodup : (runs.map fun r => (r.tids, r.instr_nums)).Nodup
  order : ∀ r ∈ runs, Order u.num_funcs (u.ncs + 1) r.tids ∧ tids_valid r.tids ∧
    from_rank ≤ rank u.num_funcs r.tids
  recorded : ∀ r ∈ runs, u.Recorded b r
  tried : ∀ tids, Order u.num_funcs (u.ncs + 1) tids → tids_valid tids →
    from_rank ≤ rank u.num_funcs tids → ∃ r ∈ runs, r.tids = tids
  complete : ∀ tids c, Order u.num_funcs (u.ncs + 1) tids → tids_valid tids →
    from_rank ≤ rank u.num_funcs tids → Odometer.Vec u.ncs c →
    u.Switches b (u.schedule tids c) u.ncs → ∃ r ∈ runs, r.tids = tids ∧ r.instr_nums = c

theorem explored_sweep {tids last : List ℕ} {f : List ℕ → ℕ} {L : List (List ℕ)} {R R' : List Run}
    {n : ℕ} (hfuncs : 1 < u.num_funcs) (hord : Order u.num_funcs (u.ncs + 1) tids)
    (hvalid : tids_valid tids)
    (hf : ∀ c, Odometer.Vec u.ncs c → u.Switches b (u.schedule tids c) (f c))
    (hsweep : Odometer.Sweep f 0 (List.replicate u.ncs 1) L last)
    (hcov : Odometer.Covers u.ncs f (fun _ => True) L)
    (hkeys : R.map (fun r => (r.tids, r.instr_nums)) = L.map (tids, ·))
    (hrec : ∀ r ∈ R, u.Recorded b r) (hR' : u.Explored b n R')
    (hn : rank u.num_funcs tids < n)
    (hleast : ∀ v, Order u.num_funcs (u.ncs + 1) v → tids_valid v →
      rank u.num_funcs tids < rank u.num_funcs v → n ≤ rank u.num_funcs v) :
    u.Explored b (rank u.num_funcs tids) (R ++ R') := by
  have hkey : ∀ r ∈ R, r.tids = tids ∧ r.instr_nums ∈ L := by
    intro r hr
    have hm : (r.tids, r.instr_nums) ∈ L.map (tids, ·) :=
      hkeys ▸ List.mem_map_of_mem (f := fun r : Run => (r.tids, r.instr_nums)) hr
    obtain ⟨c, hc, heq⟩ := List.mem_map.mp hm
    obtain ⟨h1, h2⟩ := Prod.mk.inj heq
    exact ⟨h1.symm, h2 ▸ hc⟩
  have hmem : ∀ c ∈ L, ∃ r ∈ R, r.tids = tids ∧ r.instr_nums = c := by
    intro c hc
    have hm : (tids, c) ∈ R.map (fun r => (r.tids, r.instr_nums)) :=
      hkeys ▸ List.mem_map_of_mem hc
    obtain ⟨r, hr, heq⟩ := List.mem_map.mp hm
    obtain ⟨h1, h2⟩ := Prod.mk.inj heq
    exact ⟨r, hr, h1, h2⟩
  have hsame : ∀ v, Order u.num_funcs (u.ncs + 1) v → tids_valid v →
      rank u.num_funcs tids ≤ rank u.num_funcs v → v = tids ∨ n ≤ rank u.num_funcs v := by
    intro v hv hvv hle
    rcases Nat.eq_or_lt_of_le hle with heq | hlt
    · exact .inl (hord.rank_inj hv hfuncs heq).symm
    · exact .inr (hleast v hv hvv hlt)
  constructor
  · rw [List.map_append, hkeys]
    refine List.nodup_append.mpr ⟨hcov.nodup.map fun c c' h => (Prod.mk.inj h).2, hR'.nodup, ?_⟩
    rintro a ha a' ha' rfl
    obtain ⟨c, -, rfl⟩ := List.mem_map.mp ha
    obtain ⟨r, hr, heq⟩ := List.mem_map.mp ha'
    have htids : r.tids = tids := (Prod.mk.inj heq).1
    have := (hR'.order r hr).2.2
    rw [htids] at this
    omega
  · intro r hr
    rcases List.mem_append.mp hr with hr | hr
    · rw [(hkey r hr).1]
      exact ⟨hord, hvalid, le_rfl⟩
    · obtain ⟨ho, hv, hle⟩ := hR'.order r hr
      exact ⟨ho, hv, by omega⟩
  · intro r hr
    rcases List.mem_append.mp hr with hr | hr
    · exact hrec r hr
    · exact hR'.recorded r hr
  · intro v hv hvv hle
    rcases hsame v hv hvv hle with rfl | hle
    · obtain ⟨r, hr, htids, -⟩ := hmem last hsweep.last_mem
      exact ⟨r, List.mem_append_left _ hr, htids⟩
    · obtain ⟨r, hr, htids⟩ := hR'.tried v hv hvv hle
      exact ⟨r, List.mem_append_right _ hr, htids⟩
  · intro v c hv hvv hle hc hall
    rcases hsame v hv hvv hle with rfl | hle
    · have hfull : f c = u.ncs := (hf c hc).unique hall
      obtain ⟨r, hr, hrc⟩ := hmem c (hcov.complete c hc trivial hfull)
      exact ⟨r, List.mem_append_left _ hr, hrc⟩
    · obtain ⟨r, hr, hrc⟩ := hR'.complete v c hv hvv hle hc hall
      exact ⟨r, List.mem_append_right _ hr, hrc⟩

/-- No valid order has a rank this large. -/
theorem explored_nil {n : ℕ}
    (h : ∀ v, Order u.num_funcs (u.ncs + 1) v → tids_valid v → rank u.num_funcs v < n) :
    u.Explored b n [] where
  nodup := by simp
  order := by simp
  recorded := by simp
  tried v hv hvv hle := absurd (h v hv hvv) (by omega)
  complete v _ hv hvv hle := absurd (h v hv hvv) (by omega)

/-- From any valid order on the loop ends; the induction is on the number of orders left. -/
theorem loop_orders (hfuncs : 1 < u.num_funcs) (hreads : u.platform.ReadsOnly D)
    (hinit : Restores u.init D) (hb : Ready u.threads b b) (hends : u.EveryRunEnds b) (m : ℕ) :
    ∀ tids s runs, Order u.num_funcs (u.ncs + 1) tids → tids_valid tids → Ready u.threads b s →
      u.num_funcs ^ (u.ncs + 1) ≤ rank u.num_funcs tids + m →
      ∃ N y R, u.Explored b (rank u.num_funcs tids) R ∧ y.runs = runs ++ R ∧
        ∀ fuel, N ≤ fuel → u.loop fuel ⟨tids, List.replicate u.ncs 1, s, runs⟩ = .ok (.finished y) := by
  induction m with
  | zero =>
    intro tids s runs hord _ _ hm
    have := hord.rank_lt hfuncs
    omega
  | succ m ih =>
    intro tids s runs hord hvalid hs hm
    have hrun : ∀ c, ∃ n, Odometer.Vec u.ncs c → u.Switches b (u.schedule tids c) n := by
      intro c
      by_cases hc : Odometer.Vec u.ncs c
      · obtain ⟨fuel, t, ht⟩ := hends tids c u.ncs hord hvalid hc le_rfl
        exact ⟨_, fun _ => ⟨fuel, t, ht, rfl⟩⟩
      · exact ⟨0, fun h => absurd h hc⟩
    choose f hf using hrun
    obtain ⟨L, last, hsweep, hcov⟩ := (limits hreads hinit hb hends hord hvalid hf).sweep
    obtain ⟨N, t, R, ht, hkeys, hrec, hloop⟩ := loop_sweep hreads hinit hb hf hsweep
      (fun c hc => (hcov.vec c hc).1) s runs hs
    obtain ⟨r, hr, hnext⟩ := next_tid_spec hfuncs hord
    cases r with
    | none =>
      have hnone : u.next_schedule 0 tids last = .ok none := by
        simp [next_schedule, hr, bind, Except.bind]
      refine ⟨N + L.length, ⟨List.replicate (u.ncs + 1) 1, List.replicate u.ncs 1, t, runs ++ R⟩,
        R, ?_, rfl, ?_⟩
      · have hlast := explored_nil (u := u) (b := b) (n := rank u.num_funcs tids + 1)
          fun v hv hvv => Nat.lt_succ_of_le (hnext v hv hvv)
        have hexp := explored_sweep hfuncs hord hvalid hf hsweep hcov hkeys hrec hlast (by omega)
          (fun v _ _ hlt => hlt)
        simpa using hexp
      · intro fuel hfuel
        have heq := hloop (fuel - L.length) (by omega)
        rw [Nat.sub_add_cancel (by omega), hnone] at heq
        exact heq
    | some tids' =>
      obtain ⟨hord', hvalid', hlt, hleast⟩ := hnext
      have hsome : u.next_schedule 0 tids last = .ok (some (tids', List.replicate u.ncs 1)) := by
        simp [next_schedule, hr, bind, Except.bind]
      obtain ⟨N', y, R', hexp, hy, hend⟩ := ih tids' t (runs ++ R) hord' hvalid' ht (by omega)
      refine ⟨max N N' + L.length, y, R ++ R', ?_, by simp [hy], ?_⟩
      · exact explored_sweep hfuncs hord hvalid hf hsweep hcov hkeys hrec hexp hlt hleast
      · intro fuel hfuel
        have heq := hloop (fuel - L.length) (by omega)
        rw [Nat.sub_add_cancel (by omega), hsome] at heq
        exact heq.trans (hend (fuel - L.length) (by omega))

/-- Nothing is run twice, every vector of positive counts for which all switches happen is
run, and this for every valid thread order. -/
structure Exhaustive (u : Setup) (b : Checker (List ℕ)) (runs : List Run) : Prop where
  nodup : (runs.map fun r => (r.tids, r.instr_nums)).Nodup
  positive : ∀ r ∈ runs, Odometer.Vec u.ncs r.instr_nums
  complete : ∀ r ∈ runs, ∀ c, Odometer.Vec u.ncs c →
    u.Switches b (u.schedule r.tids c) u.ncs → ∃ r' ∈ runs, r'.tids = r.tids ∧ r'.instr_nums = c
  orders : ∀ tids, Order u.num_funcs (u.ncs + 1) tids → tids_valid tids → ∃ r ∈ runs, r.tids = tids

theorem Explored.exhaustive {n : ℕ} {runs : List Run} (h : u.Explored b n runs)
    (hn : ∀ v, Order u.num_funcs (u.ncs + 1) v → tids_valid v → n ≤ rank u.num_funcs v) :
    u.Exhaustive b runs where
  nodup := h.nodup
  positive r hr := (h.recorded r hr).1
  complete r hr c hc hall := by
    obtain ⟨hord, hvalid, hle⟩ := h.order r hr
    exact h.complete r.tids c hord hvalid hle hc hall
  orders v hv hvv := h.tried v hv hvv (hn v hv hvv)

/-- Threads that read only what `init` restores, and whose runs all end, are explored
exhaustively, when every iteration starts with the queue that `reset_threads` builds. -/
theorem run_interleavings_exhaustive (u : Setup) (b : Checker (List ℕ)) (D : Set Addr)
    (hfuncs : 2 ≤ u.num_funcs) (hncs : 1 ≤ u.ncs) (hreads : u.platform.ReadsOnly D)
    (hinit : Restores u.init D) (hrunq : b.equiv_runq = []) (harmed : b.armed = false)
    (hends : u.EveryRunEnds b) :
    ∃ fuel x y, u.start b = .ok x ∧ u.loop fuel x = .ok (.finished y) ∧ u.Exhaustive b y.runs := by
  obtain ⟨tids, htids, hord, hvalid, hleast⟩ :=
    next_tid_ones (show 1 < u.num_funcs by omega) (show 0 < u.ncs + 1 by omega)
  have hb : Ready u.threads b b := ready_self hrunq harmed
  obtain ⟨N, y, R, hexp, hy, hloop⟩ := loop_orders (by omega) hreads hinit hb hends _ tids b []
    hord hvalid hb (Nat.le_add_left _ _)
  refine ⟨N, ⟨tids, List.replicate u.ncs 1, b, []⟩, y, ?_, hloop N le_rfl, ?_⟩
  · simp [start, htids, bind, Except.bind]
  · rw [hy, List.nil_append]
    refine hexp.exhaustive fun v hv hvv => ?_
    rcases Nat.eq_zero_or_pos (rank u.num_funcs v) with hzero | hpos
    · -- only the vector of ones has rank 0, and in it a thread follows itself
      have hones := (order_ones (by omega) (u.ncs + 1)).rank_inj hv (by omega)
        ((rank_ones _).trans hzero.symm)
      obtain ⟨m, hm⟩ : ∃ m, u.ncs = m + 1 := ⟨u.ncs - 1, by omega⟩
      rw [← hones, hm] at hvv
      simp [List.replicate_succ, tids_valid] at hvv
    · exact hleast v hv hvv hpos

/-- Two threads that write one shared byte and exit. -/
def writers : Setup where
  platform := {
    fetch := fun regs mem =>
      if regs 1 = 0#32 then
        .exec {512#32} true
          (Function.update (Function.update regs 1 1#32) REGS_PC (regs REGS_PC + 4#32)) mem
      else .swi (Function.update regs 0 EQUIV_EXIT)
    user_cpsr := 16
    sys_equiv_exit := 0x8000
    kmalloc_aligned := fun k => 0x100000 + 0x1000 * BitVec.ofNat 32 k }
  init := id
  shared_memory := {512#32}
  threads := [0, 1]
  ncs := 1
  report := false

def writersStart : Checker (List ℕ) where
  equiv_runq := []
  threads k :=
    { regs := fun _ => 0, tid := k + 1, fn := 0x9000, args := 0
      stack_start := writers.platform.kmalloc_aligned k
      stack_end := writers.platform.kmalloc_aligned k + stack_size }
  allocated := 2
  ntids := 3
  cur_thread := none
  ctx_switch_status := ⟨0, 0, false, false⟩
  schedule := none
  shared_memory := none
  pcs := []
  rw_tracker_enabled := false
  armed := false
  current_tracker := ⟨none, none⟩
  touch_handler := false
  mismatch := 0
  regs _ := 0
  mem _ := 0
  uart := []
  nullReads := 0

theorem writers_readsOnly : writers.platform.ReadsOnly ∅ := by
  intro regs mem mem' _
  change Instr.Agree ∅ (if regs 1 = 0#32 then _ else _) (if regs 1 = 0#32 then _ else _)
  split
  · exact .exec fun a ha => ha.elim
  · exact .swi

def endsWith (n : ℕ) : Except Fault (Progress (Checker (List ℕ))) → Bool
  | .ok (.finished t) => t.ctx_switch_status.ctx_switch == n
  | _ => false

theorem exists_of_endsWith {n : ℕ} {r : Except Fault (Progress (Checker (List ℕ)))}
    (h : endsWith n r = true) : ∃ t, r = .ok (.finished t) ∧ t.ctx_switch_status.ctx_switch = n := by
  unfold endsWith at h
  split at h
  · rename_i t
    exact ⟨t, rfl, by simpa using h⟩
  · cases h

theorem writers_runs {tids : List ℕ} (htids : tids = [1, 2] ∨ tids = [2, 1]) :
    (∃ t, writers.execute 12 (writers.schedule tids [1]) writersStart = .ok (.finished t)) ∧
      ∃ t, writers.execute 12 (writers.schedule tids [2]) writersStart = .ok (.finished t) ∧
        t.ctx_switch_status.ctx_switch = 0 := by
  rcases htids with rfl | rfl
  · obtain ⟨t, ht, -⟩ := exists_of_endsWith (n := 1)
      (r := writers.execute 12 (writers.schedule [1, 2] [1]) writersStart) (by decide +kernel)
    exact ⟨⟨t, ht⟩, exists_of_endsWith (by decide +kernel)⟩
  · obtain ⟨t, ht, -⟩ := exists_of_endsWith (n := 1)
      (r := writers.execute 12 (writers.schedule [2, 1] [1]) writersStart) (by decide +kernel)
    exact ⟨⟨t, ht⟩, exists_of_endsWith (by decide +kernel)⟩

theorem valid_pairs {tids : List ℕ} (hord : Order 2 2 tids) (hvalid : tids_valid tids) :
    tids = [1, 2] ∨ tids = [2, 1] := by
  obtain ⟨a, a', rfl⟩ := List.length_eq_two.mp hord.length
  have ha : 0 < a ∧ a ≤ 2 := hord.range a (by simp)
  have ha' : 0 < a' ∧ a' ≤ 2 := hord.range a' (by simp)
  simp [tids_valid] at hvalid ⊢
  omega

/-- A run with one switch follows those with smaller counts. -/
theorem follows_count (tids : List ℕ) {c d : ℕ} (hncs : 0 < u.ncs) (hle : c ≤ d) :
    (u.schedule tids [c]).Follows 0 True (u.schedule tids [d]) where
  tids := rfl
  counts := fun j hj => by omega
  le := Nat.zero_le _
  goes_on := fun _ => ⟨hncs, hncs⟩
  larger := fun _ count hcount => ⟨d, rfl, by
    have hc : c = count := Option.some.inj hcount
    omega⟩
  ends := fun h => absurd trivial h

theorem writers_everyRunEnds : writers.EveryRunEnds writersStart := by
  intro tids instr_nums n hord hvalid hc hn
  have hncs : writers.ncs = 1 := rfl
  obtain ⟨c, rfl⟩ := List.length_eq_one_iff.mp (hc.length.trans hncs)
  have hpos : 0 < c := hc.pos c (by simp)
  obtain ⟨⟨t, ht⟩, t', ht', hctx⟩ := writers_runs (valid_pairs hord hvalid)
  have hb : Ready writers.threads writersStart writersStart := ready_self rfl rfl
  have hinit : Restores writers.init ∅ := fun _ _ a ha => ha.elim
  rcases Nat.eq_zero_or_pos n with rfl | hpn
  · have hfollows : (writers.schedule tids [2]).Follows 0 False
        { writers.schedule tids [c] with n_ctx_switches := 0 } :=
      ⟨rfl, fun j hj => by omega, Nat.zero_le _, fun h => h.elim, fun h => h.elim, fun _ => rfl⟩
    obtain ⟨v, hv, -⟩ := execute_follows writers_readsOnly hinit hb hb hfollows ht' (by omega)
    exact ⟨12, v, hv⟩
  · obtain rfl : n = 1 := by omega
    rcases Nat.lt_or_ge 1 c with hlt | hle
    · have hfollows := follows_count (u := writers) tids Nat.one_pos (show 2 ≤ c from hlt)
      obtain ⟨v, hv, -⟩ := execute_follows writers_readsOnly hinit hb hb hfollows ht' (by omega)
      exact ⟨12, v, hv⟩
    · obtain rfl : c = 1 := by omega
      exact ⟨12, t, ht⟩

theorem run_interleavings_exhaustive_writers : ∃ fuel x y, writers.start writersStart = .ok x ∧
    writers.loop fuel x = .ok (.finished y) ∧ writers.Exhaustive writersStart y.runs :=
  run_interleavings_exhaustive writers writersStart ∅ (by decide) (by decide) writers_readsOnly
    (fun _ _ a ha => ha.elim) rfl rfl writers_everyRunEnds

end Interleaver.Setup

end EquivChecker
