import EquivChecker.RunsEnd

/-!
# The interleavings that are explored

The runs that made all their context switches are those that the schedules with so many switches
prescribe: every such run is an interleaving with so many preemptions at switch points, and whatever
a schedule prescribes is found.
-/

namespace EquivChecker.RunInterleaving

open Interleaving Checker SwitchPoints Interleaver Interleaver.Setup

section Records
variable {u : Setup} {b s t : Checker (List ℕ)} {r : Run} {D : Set Addr}

/-- The record of a run that started in a checker that is ready. -/
def Came (u : Setup) (b : Checker (List ℕ)) (r : Run) : Prop :=
  ∃ s fuel t, Ready u.threads b s ∧
    u.execute fuel (u.schedule r.tids r.instr_nums) s = .ok (.finished t) ∧
    r.status = t.ctx_switch_status ∧ r.mem = t.mem

theorem loop_came {fuel : ℕ} {x y : Explorer (List ℕ)} (hx : Ready u.threads b x.checker)
    (hruns : ∀ r ∈ x.runs, Came u b r) (hloop : u.loop fuel x = .ok (.finished y)) :
    ∀ r ∈ y.runs, Came u b r := by
  induction fuel generalizing x with
  | zero => cases hloop
  | succ fuel ih =>
    obtain ⟨tids, instr_nums, checker, runs⟩ := x
    obtain ⟨p, hp, hrest⟩ := bind_ok_iff.mp hloop
    cases p with
    | running s => cases hrest
    | finished t =>
      have hrecord : ∀ r ∈ runs ++ [⟨tids, instr_nums, t.ctx_switch_status, t.mem⟩], Came u b r := by
        intro r hr
        rcases List.mem_append.mp hr with hr | hr
        · exact hruns r hr
        · rw [List.mem_singleton.mp hr]
          exact ⟨checker, fuel + 1, t, hx, hp, rfl, rfl⟩
      obtain ⟨next, hnext, hrest⟩ := bind_ok_iff.mp hrest
      cases next with
      | none =>
        cases hrest
        exact hrecord
      | some next => exact ih (ready_leave hx hp) hrecord hrest

theorem ready_tid (hs : Ready u.threads b s) (th : ℕ) :
    (s.threads th).tid = (b.threads th).tid ∧ (s.threads th).fn = (b.threads th).fn := by
  have hframe := hs.frame th
  simp only [EqTh.frame, EqTh.mk.injEq] at hframe
  exact ⟨hframe.2.1, hframe.2.2.1⟩

theorem Built.ready (h : Built u b) (hs : Ready u.threads b s) : Built u s := by
  have htid := ready_tid hs
  refine ⟨hs.runq, ?_, ?_, fun th hth => ?_⟩
  · simp only [htid]
    exact h.distinct
  · rw [hs.allocated]
    exact h.allocated
  · rw [(htid th).2]
    exact h.entry th hth

/-- A recorded run is one from `b`, as far as `D` is concerned. -/
theorem Came.from_base (h : Came u b r) (hb : Ready u.threads b b) (hvec : Odometer.Vec u.ncs r.instr_nums)
    (hreads : u.platform.ReadsOnly D) (hinit : Restores u.init D) {fuel : ℕ}
    (hrun : u.execute fuel (u.schedule r.tids r.instr_nums) b = .ok (.finished t)) :
    r.status.ctx_switch = t.ctx_switch_status.ctx_switch ∧ ∀ a ∈ D, r.mem a = t.mem a := by
  obtain ⟨s, fuel', t', hs, hrun', hstatus, hmem⟩ := h
  obtain ⟨v, hv, hsteps⟩ := execute_iff.mp hrun
  have hle : t.ctx_switch_status.ctx_switch ≤ (u.schedule r.tids r.instr_nums).n_ctx_switches :=
    (execute_le hrun).trans_eq hvec.length
  obtain ⟨v', hv', hl⟩ := hv.lockstep hs hb hinit (follows_self _)
  obtain ⟨w, hw, hlw⟩ := hl.steps hreads hsteps hle
  have hsame := execute_of_le (execute_iff.mpr ⟨v', hv', hw⟩) (le_max_left fuel fuel')
  have hsame' := execute_of_le hrun' (le_max_right fuel fuel')
  cases hsame.symm.trans hsame'
  rw [hstatus, hmem]
  exact ⟨hlw.ctx_switch, hlw.mem⟩

/-- Functions that make no other system call than the exit do not yield. -/
theorem Came.not_yielded (h : Came u b r) (fp : Footprints u.platform) (hmoves : Moves u.platform)
    (hb : Built u b) {i : ℕ} {plan : List (ℕ × ℕ)} {l l' : List ℕ} (hq : u.threads.reverse = l ++ i :: l')
    (hfirst : r.tids[0]? = some (b.threads i).tid)
    (hplans : Plans (fun th => (b.threads th).tid) u.threads (u.schedule r.tids r.instr_nums) i 0 0 plan) :
    r.status.yielded = false := by
  obtain ⟨s, fuel, t, hs, hrun, hstatus, -⟩ := h
  have htid : (fun th => (b.threads th).tid) = fun th => (s.threads th).tid :=
    funext fun th => (ready_tid hs th).1.symm
  rw [htid] at hplans
  have hfirst' : (u.schedule r.tids r.instr_nums).tids[0]? = some (s.threads i).tid :=
    hfirst.trans (congrArg some (congrFun htid i))
  obtain ⟨-, -, -, -, -, hyielded⟩ := execute_obeys fp hmoves (hb.ready hs) hq hfirst' hplans hrun
  rw [hstatus, hyielded]

end Records

section Hops
variable {tid : ℕ → ℕ} {ths : List ℕ} {σ : Schedule} {i c k : ℕ} {plan : List (ℕ × ℕ)}

/-- The thread order and the counts of a plan are a schedule with this plan. -/
theorem plans_of_hops (h : Hops ths i plan) {tids counts : List ℕ} (htids : tids.length = c)
    (hcounts : counts.length = c) (hσtids : σ.tids = tids ++ tid i :: plan.map fun p => tid p.2)
    (hσcounts : σ.instr_counts = counts ++ plan.map Prod.fst) (hn : σ.n_ctx_switches = c + plan.length) :
    Plans tid ths σ i c 0 plan := by
  induction h generalizing c tids counts with
  | nil => exact .done hn.le
  | @cons i j m rest hm hne hj _ ih =>
    have hlt : c < σ.n_ctx_switches := by
      rw [hn, List.length_cons]
      omega
    have hcount : σ.instr_counts[c]? = some (0 + m) := by
      rw [hσcounts, ← hcounts, List.getElem?_append_right (Nat.le_refl _), Nat.sub_self, Nat.zero_add]
      rfl
    have hnext : σ.tids[c + 1]? = some (tid j) := by
      rw [hσtids, ← htids, List.getElem?_append_right (Nat.le_add_right _ 1), Nat.add_sub_cancel_left]
      rfl
    have htids' : (tids ++ [tid i]).length = c + 1 := by rw [List.length_append, htids, List.length_singleton]
    have hcounts' : (counts ++ [m]).length = c + 1 := by
      rw [List.length_append, hcounts, List.length_singleton]
    refine .switch hlt hm hcount hnext hne hj (ih htids' hcounts' ?_ ?_ ?_)
    · rw [hσtids, List.append_assoc]
      rfl
    · rw [hσcounts, List.append_assoc]
      rfl
    · rw [hn, List.length_cons]
      omega

/-- It is one of the schedules that are tried. -/
theorem order_of_hops (h : Hops ths i plan) (hi : i ∈ ths) (hdistinct : (ths.map tid).Nodup)
    (hrange : ∀ x ∈ ths, 0 < tid x ∧ tid x ≤ k) : Order k (plan.length + 1) (tid i :: plan.map fun p => tid p.2) ∧
      tids_valid (tid i :: plan.map fun p => tid p.2) ∧ Odometer.Vec plan.length (plan.map Prod.fst) := by
  induction h with
  | @nil i =>
    refine ⟨⟨rfl, fun x hx => ?_⟩, rfl, rfl, fun _ hd => nomatch hd⟩
    rw [List.mem_singleton.mp hx]
    exact hrange i hi
  | @cons i j m rest hm hne hj _ ih =>
    obtain ⟨hord, hvalid, hvec⟩ := ih hj
    obtain ⟨hpos, hle⟩ := hrange i hi
    refine ⟨hord.cons hpos hle, ?_, congrArg (· + 1) hvec.length, ?_⟩
    · rw [tids_valid_iff] at hvalid ⊢
      exact .cons_cons (fun heq => hne (List.inj_on_of_nodup_map hdistinct hj hi heq.symm)) hvalid
    · intro d hd
      rcases List.mem_cons.mp hd with rfl | hd
      · exact hm
      · exact hvec.pos d hd

end Hops

section Loop
variable {u : Setup} {b : Checker (List ℕ)} {D : Set Addr}

/-- What the loop has recorded when it is left. -/
structure Records (u : Setup) (b : Checker (List ℕ)) (runs : List Run) : Prop where
  vec : ∀ r ∈ runs, Odometer.Vec u.ncs r.instr_nums
  order : ∀ r ∈ runs, Order u.num_funcs (u.ncs + 1) r.tids ∧ tids_valid r.tids
  came : ∀ r ∈ runs, Came u b r
  complete : ∀ tids c, Order u.num_funcs (u.ncs + 1) tids → tids_valid tids → Odometer.Vec u.ncs c →
    u.Switches b (u.schedule tids c) u.ncs → ∃ r ∈ runs, r.tids = tids ∧ r.instr_nums = c

theorem loop_records (hfuncs : 2 ≤ u.num_funcs) (hncs : 1 ≤ u.ncs) (hreads : u.platform.ReadsOnly D)
    (hinit : Restores u.init D) (hb : Ready u.threads b b) (hends : u.EveryRunEnds b) :
    ∃ fuel x y, u.start b = .ok x ∧ u.loop fuel x = .ok (.finished y) ∧ Records u b y.runs := by
  obtain ⟨tids, htids, hord, hvalid, hleast⟩ :=
    next_tid_ones (show 1 < u.num_funcs by omega) (show 0 < u.ncs + 1 by omega)
  obtain ⟨N, y, R, hexp, hy, hloop⟩ := loop_orders (by omega) hreads hinit hb hends _ tids b []
    hord hvalid hb (Nat.le_add_left _ _)
  have hruns := hloop N (Nat.le_refl N)
  rw [List.nil_append] at hy
  refine ⟨N, ⟨tids, List.replicate u.ncs 1, b, []⟩, y, ?_, hruns, ?_⟩
  · rw [Interleaver.Setup.start, htids]
    rfl
  refine ⟨fun r hr => (hexp.recorded r (hy ▸ hr)).1, fun r hr => ?_,
    loop_came hb (fun _ hr => absurd hr List.not_mem_nil) hruns, fun v c hv hvv hc hall => ?_⟩
  · obtain ⟨hrord, hrvalid, -⟩ := hexp.order r (hy ▸ hr)
    exact ⟨hrord, hrvalid⟩
  · have hpos : 0 < rank u.num_funcs v := by
      rw [Nat.pos_iff_ne_zero]
      intro hzero
      -- only the vector of ones has rank 0, and in it a thread follows itself
      have hones := (order_ones (by omega) (u.ncs + 1)).rank_inj hv (by omega) ((rank_ones _).trans hzero.symm)
      obtain ⟨m, hm⟩ := Nat.exists_eq_add_of_le hncs
      rw [← hones, hm, Nat.add_comm 1 m, tids_valid_iff] at hvv
      exact List.isChain_iff_getElem.mp hvv 0 (by simp) (by simp)
    obtain ⟨r, hr, hrtids, hrc⟩ := hexp.complete v c hv hvv (hleast v hv hvv hpos) hc hall
    exact ⟨r, hy ▸ hr, hrtids, hrc⟩

end Loop

section Explorable
variable {u : Setup} {b : Checker (List ℕ)} {D : Set Addr}

/-- Functions that read only what `init` restores, and whose runs all end. -/
structure Explorable (u : Setup) (b : Checker (List ℕ)) (D : Set Addr) : Prop where
  functions : 2 ≤ u.num_funcs
  switches : 1 ≤ u.ncs
  tids : u.threads.map (fun th => (b.threads th).tid) = List.range' 1 u.num_funcs
  built : Built u b
  armed : b.armed = false
  moves : Moves u.platform
  reads : u.platform.ReadsOnly D
  restores : Restores u.init D
  ends : u.EveryRunEnds b

theorem Explorable.ready (h : Explorable u b D) : Ready u.threads b b := ready_self h.built.runq h.armed

theorem Explorable.range (h : Explorable u b D) {z : ℕ} (hz : z ∈ u.threads) :
    0 < (b.threads z).tid ∧ (b.threads z).tid ≤ u.num_funcs := by
  have hmem := List.mem_map_of_mem (f := fun th => (b.threads th).tid) hz
  rw [h.tids, List.mem_range'_1] at hmem
  omega

theorem Explorable.fits (h : Explorable u b D) {tids counts : List ℕ}
    (hord : Order u.num_funcs (u.ncs + 1) tids) (hvalid : tids_valid tids)
    (hvec : Odometer.Vec u.ncs counts) :
    (u.schedule tids counts).Fits (fun th => (b.threads th).tid) u.threads := by
  refine ⟨hord.length, hvec.length, fun t ht => ?_, tids_valid_iff.mp hvalid⟩
  obtain ⟨hpos, hle⟩ := hord.range t ht
  have hmem : t ∈ List.range' 1 u.num_funcs := List.mem_range'_1.mpr ⟨hpos, by omega⟩
  rw [← h.tids] at hmem
  exact List.mem_map.mp hmem

/-- A run that made all its switches is an interleaving with so many preemptions, which leaves functions
only after touches of shared memory and at their exits. -/
theorem Explorable.sound (h : Explorable u b D) (fp : Footprints u.platform) {runs : List Run}
    (hruns : Records u b runs) {run : Run} (hrun : run ∈ runs) (hswitch : run.status.ctx_switch = u.ncs) :
    ∃ τ, Complete fp.machine (launch u b) τ ∧
      Reduced (u.shared_memory : Set Addr) (trace fp.machine (launch u b) τ) ∧
      preemptions (trace fp.machine (launch u b) τ) = u.ncs ∧
      ∀ a ∈ D, run.mem a = (Interleaving.run fp.machine (launch u b) τ).mem a := by
  have hvec := hruns.vec run hrun
  obtain ⟨hord, hvalid⟩ := hruns.order run hrun
  obtain ⟨fuel, t, hexec⟩ := h.ends run.tids run.instr_nums u.ncs hord hvalid hvec (Nat.le_refl _)
  obtain ⟨hctx, hmem⟩ := (hruns.came run hrun).from_base h.ready hvec h.reads h.restores hexec
  have hfits := h.fits hord hvalid hvec
  have hlength : 0 < run.tids.length := by
    rw [hord.length]
    exact Nat.succ_pos _
  obtain ⟨i, hi, htid⟩ := hfits.drawn _ (List.getElem_mem hlength)
  have hfirst : run.tids[0]? = some (b.threads i).tid := by
    rw [List.getElem?_eq_getElem hlength, ← htid]
  obtain ⟨plan, hplans⟩ := exists_plans_of_fits hfits (fun m hm => hvec.pos m hm) hfirst
  obtain ⟨l, r, hq⟩ := List.append_of_mem (List.mem_reverse.mpr hi)
  obtain ⟨τ, m, hobeys, hτ, hm, -⟩ := execute_obeys fp h.moves h.built hq hfirst hplans hexec
  have hnodup : (i :: (r ++ l)).Nodup := (queue_perm hq).nodup_iff.mpr h.built.nodup
  have hcomplete := hobeys.complete hnodup ((alive_launch fp).perm (queue_perm hq).symm)
  refine ⟨τ, hcomplete, hobeys.reduced, ?_, fun a ha => ?_⟩
  · exact (hobeys.preemptions hnodup).trans (hm.symm.trans (hctx.symm.trans hswitch))
  · rw [hmem a ha]
    exact (congrFun hτ a).symm

/-- What a schedule prescribes that makes all its switches is one of the runs. -/
theorem Explorable.found (h : Explorable u b D) (fp : Footprints u.platform) {runs : List Run}
    (hruns : Records u b runs) {i : ℕ} {l l' : List ℕ} {plan : List (ℕ × ℕ)} {τ : List ℕ}
    (hq : u.threads.reverse = l ++ i :: l') (hhops : Hops u.threads i plan) (hlength : plan.length = u.ncs)
    (hobeys : Obeys fp.machine (u.shared_memory : Set Addr) (l' ++ l) i plan (launch u b) τ plan.length) :
    ∃ run ∈ runs, run.status.yielded = false ∧ run.status.ctx_switch = u.ncs ∧
      ∀ a ∈ D, run.mem a = (Interleaving.run fp.machine (launch u b) τ).mem a := by
  have hi : i ∈ u.threads := (queue_perm hq).mem_iff.mp List.mem_cons_self
  obtain ⟨hord, hvalid, hvec⟩ :=
    @order_of_hops (fun th => (b.threads th).tid) u.threads i u.num_funcs plan hhops hi h.built.distinct
      fun x hx => h.range hx
  rw [hlength] at hord hvec
  obtain ⟨fuel, t, hexec⟩ := h.ends _ _ _ hord hvalid hvec (Nat.le_refl _)
  have hplans : Plans (fun th => (b.threads th).tid) u.threads (u.schedule
      ((b.threads i).tid :: plan.map fun p => (b.threads p.2).tid) (plan.map Prod.fst)) i 0 0 plan := by
    refine plans_of_hops hhops List.length_nil List.length_nil rfl rfl ?_
    rw [hlength, Nat.zero_add]
    rfl
  obtain ⟨τ', m, hobeys', hmem, hm, -⟩ := execute_obeys fp h.moves h.built hq rfl hplans hexec
  obtain ⟨rfl, rfl⟩ := hobeys'.unique hobeys
  obtain ⟨run, hrun, htids, hcounts⟩ := hruns.complete _ _ hord hvalid hvec ⟨fuel, t, hexec, hm.trans hlength⟩
  have hcame := hruns.came run hrun
  rw [← htids, ← hcounts] at hexec hplans
  obtain ⟨hctx, hsame⟩ := hcame.from_base h.ready (hruns.vec run hrun) h.reads h.restores hexec
  refine ⟨run, hrun, ?_, hctx.trans (hm.trans hlength), fun a ha => ?_⟩
  · refine hcame.not_yielded fp h.moves h.built hq ?_ hplans
    rw [htids]
    rfl
  · rw [hsame a ha]
    exact (congrFun hmem a).symm

/-- What a schedule with `ncs` context switches prescribes that makes all of them. -/
def Prescribed (u : Setup) (fp : Footprints u.platform) (b : Checker (List ℕ)) (τ : List ℕ) : Prop :=
  ∃ i plan l l', u.threads.reverse = l ++ i :: l' ∧ Hops u.threads i plan ∧ plan.length = u.ncs ∧
    Obeys fp.machine (u.shared_memory : Set Addr) (l' ++ l) i plan (launch u b) τ plan.length

/-- Functions that end are explored. -/
theorem explorable_of_halts (fp : Footprints u.platform) (hfuncs : 2 ≤ u.num_funcs) (hncs : 1 ≤ u.ncs)
    (htids : u.threads.map (fun th => (b.threads th).tid) = List.range' 1 u.num_funcs) (hb : Built u b)
    (harmed : b.armed = false) (hmoves : Moves u.platform) (hreads : u.platform.ReadsOnly D)
    (hinit : Restores u.init D)
    (hstacks : ∀ th ∈ u.threads, check_sp (refreshed u.platform (b.threads th)) = .ok ())
    (hhalts : Halts fp b.threads (launch u b)) : Explorable u b D :=
  ⟨hfuncs, hncs, htids, hb, harmed, hmoves, hreads, hinit, everyRunEnds u fp hmoves b hb htids hstacks hhalts⟩

/-- When no interleaving of the functions goes on forever, the loop of `run_interleavings` ends. Its runs that
made all their switches are interleavings with so many preemptions at switch points, and whatever a schedule
prescribes is among them. -/
theorem run_interleavings_explores (u : Setup) (b : Checker (List ℕ)) (D : Set Addr)
    (fp : Footprints u.platform) (hfuncs : 2 ≤ u.num_funcs) (hncs : 1 ≤ u.ncs)
    (htids : u.threads.map (fun th => (b.threads th).tid) = List.range' 1 u.num_funcs) (hb : Built u b)
    (harmed : b.armed = false) (hmoves : Moves u.platform) (hreads : u.platform.ReadsOnly D)
    (hinit : Restores u.init D)
    (hstacks : ∀ th ∈ u.threads, check_sp (refreshed u.platform (b.threads th)) = .ok ())
    (hhalts : Halts fp b.threads (launch u b)) :
    ∃ fuel e e', u.start b = .ok e ∧ u.loop fuel e = .ok (.finished e') ∧
      (∀ run ∈ e'.runs, run.status.ctx_switch = u.ncs → ∃ τ, Complete fp.machine (launch u b) τ ∧
        LeftAtSwitchPoints u.shared_memory (trace fp.machine (launch u b) τ) ∧
        preemptions (trace fp.machine (launch u b) τ) = u.ncs ∧
        ∀ a ∈ D, run.mem a = (Interleaving.run fp.machine (launch u b) τ).mem a) ∧
      ∀ τ, Prescribed u fp b τ → ∃ run ∈ e'.runs, run.status.yielded = false ∧ run.status.ctx_switch = u.ncs ∧
        ∀ a ∈ D, run.mem a = (Interleaving.run fp.machine (launch u b) τ).mem a := by
  have h : Explorable u b D :=
    explorable_of_halts fp hfuncs hncs htids hb harmed hmoves hreads hinit hstacks hhalts
  obtain ⟨fuel, e, e', hstart, hloop, hruns⟩ :=
    loop_records h.functions h.switches h.reads h.restores h.ready h.ends
  refine ⟨fuel, e, e', hstart, hloop, fun run hrun hswitch => ?_, fun τ hτ => ?_⟩
  · obtain ⟨τ, hτ, hred, hpre, hmem⟩ := h.sound fp hruns hrun hswitch
    exact ⟨τ, hτ, leftAtSwitchPoints_of_reduced (fun e he => exists_touched fp he) hred, hpre, hmem⟩
  · obtain ⟨i, plan, l, l', hq, hhops, hlength, hobeys⟩ := hτ
    exact h.found fp hruns hq hhops hlength hobeys

end Explorable

section Racers

theorem racers_restores : Restores racers.init {4096} := by
  intro mem mem' a ha
  rw [Set.mem_singleton_iff.mp ha]
  exact (Function.update_self 4096 0 mem').trans (Function.update_self 4096 0 mem).symm

/-- The run that lost an increment is recorded. -/
theorem run_interleavings_explores_lost : ∃ fuel e e', racers.start racersStart = .ok e ∧
    racers.loop fuel e = .ok (.finished e') ∧ ∃ run ∈ e'.runs, run.status.ctx_switch = 1 ∧ run.mem 4096 = 1 := by
  obtain ⟨fuel, e, e', hstart, hloop, -, hfound⟩ := run_interleavings_explores racers racersStart {4096}
    racingFootprints (Nat.le_refl 2) (Nat.le_refl 1) rfl racersBuilt rfl racing_moves racing_readsOnly
    racers_restores racers_stacks racers_halts
  obtain ⟨t, hrun, hctx, hmem⟩ := racers_lost
  have hhops : Hops racers.threads 0 [(1, 1)] :=
    .cons Nat.one_pos one_ne_zero (List.mem_cons_of_mem 0 List.mem_cons_self) .nil
  have hplans : Plans (fun th => (racersStart.threads th).tid) racers.threads (racers.schedule [1, 2] [1])
      0 0 0 [(1, 1)] :=
    plans_of_hops hhops List.length_nil List.length_nil rfl rfl rfl
  have hq : racers.threads.reverse = [1] ++ 0 :: [] := rfl
  obtain ⟨τ, n, hobeys, hsame, hn, -⟩ := execute_obeys racingFootprints racing_moves racersBuilt hq rfl hplans hrun
  obtain rfl : n = 1 := hn.symm.trans hctx
  obtain ⟨run, hmemrun, -, hswitch, hend⟩ := hfound τ ⟨0, [(1, 1)], [1], [], hq, hhops, rfl, hobeys⟩
  refine ⟨fuel, e, e', hstart, hloop, run, hmemrun, hswitch, ?_⟩
  rw [hend 4096 rfl, hsame, hmem]

end Racers

end EquivChecker.RunInterleaving
