import EquivChecker.ScheduleFidelity

/-!
# The report of a schedule

With a report, `ctx_switch_handler` stores the program counters of the scheduled touches, and
`print_schedule` prints them. The rows of the report come from `equiv_malloc` with whatever they held
before, so that a cell without a store prints garbage.
-/

namespace EquivChecker.ScheduleReport

open Checker

/-- What `print_schedule` prints in one column. -/
inductive Cell where
  | blank
  | bar
  | cross
  | pc (pc : Word)
  deriving DecidableEq, Repr

/-- The text of `print_schedule`: the numbers of the functions, the lines of each context switch, and
two lines about the thread that runs to its end. -/
structure Printed where
  msg : Option String
  numbers : List ℕ
  rows : List (List (List Cell))
  bars : List Cell
  crosses : List Cell
  deriving DecidableEq, Repr

/-- One line: the cell stands in the column of the thread at this place of the schedule. -/
def print_line (schedule : Schedule) (ctx_switch : ℕ) (cell : Cell) : Except Fault (List Cell) :=
  (List.range schedule.n_funcs).mapM fun f => do
    let tid ← readAt schedule.tids ctx_switch
    .ok (if tid = f + 1 then cell else .blank)

def print_row (pcs : ℕ → ℕ → Word) (schedule : Schedule) (ctx_switch : ℕ) :
    Except Fault (List (List Cell)) := do
  let count ← readAt schedule.instr_counts ctx_switch
  (List.range count).mapM fun instr =>
    print_line schedule ctx_switch (if schedule.report then .pc (pcs ctx_switch instr) else .bar)

/-- `print_schedule`, where `pcs` is what `report->pcs` holds. -/
def print_schedule (msg : Option String) (pcs : ℕ → ℕ → Word) (schedule : Schedule) :
    Except Fault Printed := do
  let rows ← (List.range schedule.n_ctx_switches).mapM (print_row pcs schedule)
  let bars ← print_line schedule schedule.n_ctx_switches .bar
  let crosses ← print_line schedule schedule.n_ctx_switches .cross
  .ok ⟨msg, List.range schedule.n_funcs, rows, bars, crosses⟩

/-- What `report->pcs` holds after the stores. -/
def pcsAfter (fresh : ℕ → ℕ → Word) (stores : List (ℕ × ℕ × Word)) : ℕ → ℕ → Word :=
  stores.foldl (fun pcs store =>
    Function.update pcs store.1 (Function.update (pcs store.1) store.2.1 store.2.2)) fresh

section Stores
variable {fresh fresh' : ℕ → ℕ → Word} {stores : List (ℕ × ℕ × Word)} {c i : ℕ}

theorem pcsAfter_append (store : ℕ × ℕ × Word) : pcsAfter fresh (stores ++ [store]) c i =
    if c = store.1 ∧ i = store.2.1 then store.2.2 else pcsAfter fresh stores c i := by
  rw [pcsAfter, List.foldl_append, List.foldl_cons, List.foldl_nil, ← pcsAfter]
  by_cases hc : c = store.1
  · subst hc
    rw [Function.update_self]
    by_cases hi : i = store.2.1
    · subst hi
      rw [Function.update_self, if_pos ⟨rfl, rfl⟩]
    · rw [Function.update_of_ne hi, if_neg fun h => hi h.2]
  · rw [Function.update_of_ne hc, if_neg fun h => hc h.1]

/-- A cell holds its last store, whatever it held before. -/
theorem pcsAfter_congr (h : ∃ pc, (c, i, pc) ∈ stores) :
    pcsAfter fresh stores c i = pcsAfter fresh' stores c i := by
  induction stores using List.reverseRecOn with
  | nil =>
    obtain ⟨pc, hpc⟩ := h
    cases hpc
  | append_singleton stores store ih =>
    rw [pcsAfter_append, pcsAfter_append]
    split_ifs with hlast
    · rfl
    · obtain ⟨pc, hpc⟩ := h
      refine ih ⟨pc, (List.mem_append.mp hpc).resolve_right fun hstore => hlast ?_⟩
      rw [← List.mem_singleton.mp hstore]
      exact ⟨rfl, rfl⟩

/-- A cell without a store holds what it held before. -/
theorem pcsAfter_eq_fresh (h : ¬∃ pc, (c, i, pc) ∈ stores) : pcsAfter fresh stores c i = fresh c i := by
  induction stores using List.reverseRecOn with
  | nil => rfl
  | append_singleton stores store ih =>
    rw [pcsAfter_append, if_neg, ih fun ⟨pc, hpc⟩ => h ⟨pc, List.mem_append_left _ hpc⟩]
    rintro ⟨rfl, rfl⟩
    exact h ⟨store.2.2, List.mem_append_right _ (List.mem_singleton.mpr rfl)⟩

end Stores

section Print
variable {σ : Schedule} {tid : ℕ → ℕ} {queue : List ℕ} {pcs pcs' : ℕ → ℕ → Word} {msg : Option String}

theorem mapM_eq_ok {α β : Type} {f : α → Except Fault β} {g : α → β} {l : List α}
    (h : ∀ a ∈ l, f a = .ok (g a)) : l.mapM f = .ok (l.map g) := by
  induction l with
  | nil => rfl
  | cons a l ih =>
    rw [List.mapM_cons, h a List.mem_cons_self, ih fun b hb => h b (List.mem_cons_of_mem a hb)]
    rfl

/-- The line of a thread. -/
def line (n_funcs tid : ℕ) (cell : Cell) : List Cell :=
  (List.range n_funcs).map fun f => if tid = f + 1 then cell else .blank

theorem line_inj {n_funcs tid : ℕ} (hpos : 1 ≤ tid) (hle : tid ≤ n_funcs) {x y : Cell} :
    line n_funcs tid x = line n_funcs tid y ↔ x = y := by
  constructor
  · intro h
    have hcolumn := List.map_inj_left.mp h (tid - 1) (List.mem_range.mpr (by omega))
    rwa [if_pos (by omega), if_pos (by omega)] at hcolumn
  · rintro rfl
    rfl

theorem print_line_eq {c t : ℕ} (h : σ.tids[c]? = some t) (cell : Cell) :
    print_line σ c cell = .ok (line σ.n_funcs t cell) :=
  mapM_eq_ok fun _ _ => bind_ok_iff.mpr ⟨t, readAt_ok_iff.mpr h, rfl⟩

theorem print_row_eq (pcs : ℕ → ℕ → Word) {c t count : ℕ} (hσ : σ.report = true) (htid : σ.tids[c]? = some t)
    (hcount : σ.instr_counts[c]? = some count) : print_row pcs σ c =
      .ok ((List.range count).map fun i => line σ.n_funcs t (.pc (pcs c i))) := by
  refine bind_ok_iff.mpr ⟨count, readAt_ok_iff.mpr hcount, mapM_eq_ok fun i _ => ?_⟩
  rw [hσ]
  exact print_line_eq htid _

theorem getElem?_eq_getD {l : List ℕ} {c : ℕ} (h : c < l.length) : l[c]? = some (l.getD c 0) := by
  rw [List.getD_eq_getElem?_getD, List.getElem?_eq_getElem h, Option.getD_some]

/-- Printing a schedule that fits its threads reads no array beyond its end. -/
theorem print_schedule_eq (hfits : σ.Fits tid queue) (hσ : σ.report = true) :
    print_schedule msg pcs σ = .ok
      { msg, numbers := List.range σ.n_funcs
        rows := (List.range σ.n_ctx_switches).map fun c => (List.range (σ.instr_counts.getD c 0)).map fun i =>
          line σ.n_funcs (σ.tids.getD c 0) (.pc (pcs c i))
        bars := line σ.n_funcs (σ.tids.getD σ.n_ctx_switches 0) .bar
        crosses := line σ.n_funcs (σ.tids.getD σ.n_ctx_switches 0) .cross } := by
  have htid : ∀ c, c ≤ σ.n_ctx_switches → σ.tids[c]? = some (σ.tids.getD c 0) := by
    intro c hc
    refine getElem?_eq_getD ?_
    rw [hfits.tids_length]
    omega
  have hcount : ∀ c, c < σ.n_ctx_switches → σ.instr_counts[c]? = some (σ.instr_counts.getD c 0) := by
    intro c hc
    refine getElem?_eq_getD ?_
    rwa [hfits.counts_length]
  have hrows := mapM_eq_ok (l := List.range σ.n_ctx_switches) fun c hc =>
    print_row_eq pcs hσ (htid c (List.mem_range.mp hc).le) (hcount c (List.mem_range.mp hc))
  have hlast := htid σ.n_ctx_switches (Nat.le_refl _)
  refine bind_ok_iff.mpr ⟨_, hrows, bind_ok_iff.mpr ⟨_, print_line_eq hlast .bar, ?_⟩⟩
  exact bind_ok_iff.mpr ⟨_, print_line_eq hlast .cross, rfl⟩

/-- Every cell of the report is printed. -/
theorem print_schedule_inj (hfits : σ.Fits tid queue) (hσ : σ.report = true)
    (hfuncs : ∀ t ∈ σ.tids, 1 ≤ t ∧ t ≤ σ.n_funcs) :
    print_schedule msg pcs σ = print_schedule msg pcs' σ ↔
      ∀ c i count, σ.instr_counts[c]? = some count → i < count → pcs c i = pcs' c i := by
  rw [print_schedule_eq hfits hσ, print_schedule_eq hfits hσ]
  have hrow : ∀ c i, c < σ.n_ctx_switches → (line σ.n_funcs (σ.tids.getD c 0) (.pc (pcs c i)) =
      line σ.n_funcs (σ.tids.getD c 0) (.pc (pcs' c i)) ↔ pcs c i = pcs' c i) := by
    intro c i hc
    have hlt : c < σ.tids.length := by
      rw [hfits.tids_length]
      omega
    obtain ⟨hpos, hle⟩ := hfuncs _ (List.mem_of_getElem? (getElem?_eq_getD hlt))
    rw [line_inj hpos hle, Cell.pc.injEq]
  constructor
  · intro h c i count hcount hi
    have hlt : c < σ.n_ctx_switches := hfits.counts_length ▸ (List.getElem?_eq_some_iff.mp hcount).1
    have hrows := List.map_inj_left.mp (Printed.mk.inj (Except.ok.inj h)).2.2.1 c (List.mem_range.mpr hlt)
    refine (hrow c i hlt).mp (List.map_inj_left.mp hrows i (List.mem_range.mpr ?_))
    rwa [List.getD_eq_getElem?_getD, hcount]
  · intro h
    congr 2
    refine List.map_inj_left.mpr fun c hc => List.map_inj_left.mpr fun i hi => ?_
    have hlt := List.mem_range.mp hc
    refine (hrow c i hlt).mpr (h c i _ (getElem?_eq_getD ?_) (List.mem_range.mp hi))
    rwa [hfits.counts_length]

end Print

/-- A touch of shared memory that counts for the schedule: the switches before it, the shared touches
that its thread has completed since the last of them, the number of the thread, and its program counter. -/
structure Touch where
  switches : ℕ
  completed : ℕ
  tid : ℕ
  pc : Word

/-- Where the touch is stored: `report->pcs[switches][completed] = pc`. -/
def Touch.store (x : Touch) : ℕ × ℕ × Word := (x.switches, x.completed, x.pc)

/-- The order in which `print_schedule` prints. -/
def Touch.Before (x y : Touch) : Prop :=
  x.switches < y.switches ∨ x.switches = y.switches ∧ x.completed ≤ y.completed

/-- The touch that a trap is, if it counts. -/
def scheduled (w : Watch) (t : Checker (List ℕ)) : Trap → List Touch
  | .touch touched pc =>
    if t.schedule.any (w.switches < ·.n_ctx_switches) ∧ t.shared_memory.getD ∅ ∩ touched ≠ ∅ then
      t.cur_thread.toList.map fun th => ⟨w.switches, w.completed, (t.threads th).tid, pc⟩
    else []
  | _ => []

/-- A run with the touches that count in it, oldest first. -/
inductive Logs (s₀ : Checker (List ℕ)) : List Touch → Watch → Progress (Checker (List ℕ)) → Prop where
  | start : Logs s₀ [] .start (.running s₀)
  | trap {log : List Touch} {w : Watch} {t : Checker (List ℕ)} {e : Trap} {r : Progress (Checker (List ℕ))}
      (h : Logs s₀ log w (.running t)) (hok : Scheduled w e) (hrun : t.handle e = .ok r) :
      Logs s₀ (log ++ scheduled w t e) (w.observe t e r) r

/-- The cells that have been counted, and the one of a touch that the next step counts. -/
def Counted (σ : Schedule) (st : CtxSwitchStatus) (c i : ℕ) : Prop :=
  ∃ count, σ.instr_counts[c]? = some count ∧ i < count ∧
    (c < st.ctx_switch ∨ c = st.ctx_switch ∧ i < st.instr_count + st.do_instr_count.toNat)

/-- The report of a run that started in `s`. -/
structure Reports (σ : Schedule) (s : Checker (List ℕ)) (log : List Touch) (w : Watch)
    (t : Checker (List ℕ)) : Prop where
  pcs : t.pcs = s.pcs ++ log.map Touch.store
  threads : ∀ x ∈ log, σ.tids[x.switches]? = some x.tid
  ordered : log.Pairwise Touch.Before
  cells : ∀ c i, (∃ pc, (c, i, pc) ∈ log.map Touch.store) ↔ Counted σ t.ctx_switch_status c i
  behind : ∀ count, σ.instr_counts[t.ctx_switch_status.ctx_switch]? = some count →
    t.ctx_switch_status.instr_count < count
  bound : t.ctx_switch_status.ctx_switch ≤ σ.n_ctx_switches
  marked : t.ctx_switch_status.do_instr_count = true → w.touched = true

section Runs
variable {σ : Schedule} {s s₀ t v : Checker (List ℕ)} {log : List Touch} {w : Watch} {e : Trap}
  {r : Progress (Checker (List ℕ))} {touched : Finset Addr} {pc : Word} {regs : Regs}

theorem Logs.reaches (h : Logs s₀ log w r) : Reaches Scheduled s₀ w r := by
  induction h with
  | start => exact .start
  | trap _ hok hrun ih => exact ih.trap hok hrun

theorem exists_logs (h : Reaches Scheduled s₀ w r) : ∃ log, Logs s₀ log w r := by
  induction h with
  | start => exact ⟨[], .start⟩
  | trap _ hok hrun ih =>
    obtain ⟨log, hlog⟩ := ih
    exact ⟨_, hlog.trap hok hrun⟩

/-- A touch that is not marked does not count. -/
theorem scheduled_eq_nil (hf : Follows σ s w t) (h : ∀ σ, t.schedule = some σ →
    t.ctx_switch_status.ctx_switch < σ.n_ctx_switches → t.shared_memory.getD ∅ ∩ touched = ∅) :
    scheduled w t (.touch touched pc) = [] := by
  refine if_neg fun ⟨hleft, hmeet⟩ => hmeet ?_
  cases hσ : t.schedule with
  | none =>
    rw [hσ] at hleft
    cases hleft
  | some σ' =>
    rw [hσ, Option.any_some, decide_eq_true_iff, ← hf.switches] at hleft
    exact h σ' hσ hleft

/-- The cell of the touch is the only new one. -/
theorem counted_touch {st : CtxSwitchStatus} {count : ℕ} (hcount : σ.instr_counts[st.ctx_switch]? = some count)
    (hlt : st.instr_count < count) (c i : ℕ) : Counted σ { st with do_instr_count := true } c i ↔
      Counted σ st c i ∨ c = st.ctx_switch ∧ i = st.instr_count := by
  constructor
  · rintro ⟨count', hcount', hi, hc | ⟨rfl, hle⟩⟩
    · exact .inl ⟨count', hcount', hi, .inl hc⟩
    · by_cases hnew : i = st.instr_count
      · exact .inr ⟨rfl, hnew⟩
      · simp only [Bool.toNat_true] at hle
        exact .inl ⟨count', hcount', hi, .inr ⟨rfl, by omega⟩⟩
  · rintro (⟨count', hcount', hi, hc⟩ | ⟨rfl, rfl⟩)
    · refine ⟨count', hcount', hi, hc.imp_right fun hsame => ⟨hsame.1, hsame.2.trans_le ?_⟩⟩
      exact Nat.add_le_add_left (Bool.toNat_le _) _
    · exact ⟨count, hcount, hlt, .inr ⟨rfl, Nat.lt_succ_self _⟩⟩

theorem Reports.touch (hs : Startable s) (hσ : s.schedule = some σ) (hreport : σ.report = true)
    (hp : Placed s w t) (hf : Follows σ s w t) (h : Reports σ s log w t)
    (hrun : t.handle (.touch touched pc) = .ok (.running v)) :
    Reports σ s (log ++ scheduled w t (.touch touched pc))
      (w.observe t (.touch touched pc) (.running v)) v := by
  obtain ⟨v', hv, hv'⟩ := bind_ok_iff.mp hrun
  cases hv'
  rcases hp.touch hs touched pc with ⟨σ', hσt, hlt, hmeet, heq⟩ | ⟨hmeet, heq⟩
  · cases hv.symm.trans heq
    cases hσ.symm.trans (hp.schedule σ' hσt).1
    have hset : t.schedule ≠ none := ne_of_eq_of_ne hσt (Option.some_ne_none σ)
    obtain ⟨th, hcur, htid⟩ := hf.thread hset
    obtain ⟨count, hcount⟩ := (count_lt_iff hs hσ).mp hlt
    obtain ⟨hinstr, -, -⟩ := hf.counts hset count (hf.switches ▸ hcount)
    have hnew : scheduled w t (.touch touched pc) = [⟨w.switches, w.completed, (t.threads th).tid, pc⟩] := by
      simp [scheduled, hσt, ← hf.switches, hlt, hmeet, hcur]
    rw [hnew]
    have hcell : ∀ c i, (∃ pc', (c, i, pc') ∈ List.map Touch.store
        (log ++ [⟨w.switches, w.completed, (t.threads th).tid, pc⟩])) ↔
          (∃ pc', (c, i, pc') ∈ log.map Touch.store) ∨ c = w.switches ∧ i = w.completed := by
      intro c i
      rw [List.map_append]
      constructor
      · rintro ⟨pc', hpc'⟩
        rcases List.mem_append.mp hpc' with hpc' | hpc'
        · exact .inl ⟨pc', hpc'⟩
        · cases List.mem_singleton.mp hpc'
          exact .inr ⟨rfl, rfl⟩
      · rintro (⟨pc', hpc'⟩ | ⟨rfl, rfl⟩)
        · exact ⟨pc', List.mem_append_left _ hpc'⟩
        · exact ⟨pc, List.mem_append_right _ (List.mem_singleton.mpr rfl)⟩
    constructor
    · rw [withTouch, if_pos hreport, List.map_append, ← List.append_assoc, ← h.pcs, hf.switches, hinstr]
      rfl
    · intro x hx
      rcases List.mem_append.mp hx with hx | hx
      · exact h.threads x hx
      · rw [List.mem_singleton.mp hx, htid, hp.tids th]
    · refine List.pairwise_append.mpr ⟨h.ordered, List.pairwise_singleton _ _, fun x hx y hy => ?_⟩
      rw [List.mem_singleton.mp hy]
      obtain ⟨-, -, -, hbefore⟩ := (h.cells x.switches x.completed).mp ⟨x.pc, List.mem_map_of_mem hx⟩
      rw [hf.switches, hinstr] at hbefore
      refine hbefore.imp_right fun hsame => ⟨hsame.1, ?_⟩
      have hle := Bool.toNat_le t.ctx_switch_status.do_instr_count
      have hlt := hsame.2
      change x.completed ≤ w.completed
      omega
    · intro c i
      rw [hcell, h.cells, ← hf.switches, ← hinstr]
      exact (counted_touch hcount (h.behind count hcount) c i).symm
    · exact h.behind
    · exact h.bound
    · intro _
      simp [Watch.observe, hmeet]
  · cases hv.symm.trans heq
    rw [scheduled_eq_nil hf hmeet, List.append_nil]
    refine ⟨h.pcs, h.threads, h.ordered, h.cells, h.behind, h.bound, fun hdo => ?_⟩
    simp [Watch.observe, h.marked hdo]

/-- A step counts the cell of the touch before it. -/
theorem Reports.handled (hs : Startable s) (hσ : s.schedule = some σ) (hcounts : ∀ c ∈ σ.instr_counts, 1 ≤ c)
    (hp : Placed s w t) (h : Reports σ s log w t) (hv : Handled { t with regs } v) (w' : Watch) :
    Reports σ s log w' v := by
  cases hv with
  | @unmarked th hcur hdo =>
    have hstatus : (saved th { t with regs }).ctx_switch_status = t.ctx_switch_status :=
      saved_ctx_switch_status _ _
    refine ⟨(saved_pcs _ _).trans h.pcs, h.threads, h.ordered, ?_, ?_, ?_, fun hdo' => ?_⟩
    · rw [hstatus]
      exact h.cells
    · rw [hstatus]
      exact h.behind
    · rw [hstatus]
      exact h.bound
    · rw [hstatus, show t.ctx_switch_status.do_instr_count = false from hdo] at hdo'
      cases hdo'
  | @counted th σ' count hcur hdo hσt hcount hlt =>
    cases hp.same_schedule hσ hσt
    have hcount : σ.instr_counts[t.ctx_switch_status.ctx_switch]? = some count := hcount
    have hdo : t.ctx_switch_status.do_instr_count = true := hdo
    refine ⟨(saved_pcs th { t with regs }).trans h.pcs, h.threads, h.ordered, fun c i => ?_,
      fun count' hcount' => ?_, h.bound, fun hdo' => nomatch hdo'⟩
    · rw [h.cells, Counted, hdo]
      rfl
    · cases hcount.symm.trans hcount'
      exact hlt
  | @switched th σ' count tid next q hcur hdo hσt hcount hle htid hnext =>
    cases hp.same_schedule hσ hσt
    obtain ⟨hlt, -, -, -⟩ := hp.switched_to hs hcur hdo hσt htid hnext
    have hcount : σ.instr_counts[t.ctx_switch_status.ctx_switch]? = some count := hcount
    have hdo : t.ctx_switch_status.do_instr_count = true := hdo
    have hle : count ≤ t.ctx_switch_status.instr_count + 1 := hle
    refine ⟨(saved_pcs th { t with regs }).trans h.pcs, h.threads, h.ordered, fun c i => ?_,
      fun count' hcount' => hcounts count' (List.mem_of_getElem? hcount'), hlt, fun hdo' => nomatch hdo'⟩
    rw [h.cells]
    change Counted σ t.ctx_switch_status c i ↔ Counted σ ⟨t.ctx_switch_status.ctx_switch + 1, 0, false, _⟩ c i
    constructor
    · rintro ⟨count', hcount', hi, hc | ⟨rfl, -⟩⟩
      · exact ⟨count', hcount', hi, .inl (Nat.lt_succ_of_lt hc)⟩
      · exact ⟨count', hcount', hi, .inl (Nat.lt_succ_self _)⟩
    · rintro ⟨count', hcount', hi, hc | ⟨-, hi'⟩⟩
      · refine ⟨count', hcount', hi, (Nat.lt_succ_iff_lt_or_eq.mp hc).imp_right fun hsame => ⟨hsame, ?_⟩⟩
        subst hsame
        cases hcount.symm.trans hcount'
        rw [hdo, Bool.toNat_true]
        exact hi.trans_le hle
      · exact absurd hi' (Nat.not_lt_zero i)

/-- A system call leaves the report and the counters. -/
theorem Reports.trapped (hok : w.touched = false) (h : Reports σ s log w t)
    (hno : regs 0 = EQUIV_YIELD ∨ regs 0 = EQUIV_EXIT) (hr : Trapped { t with regs } r) (w' : Watch) :
    Reports σ s log w' r.state := by
  obtain ⟨-, hpcs, y, hstatus⟩ := hr.unscheduled hno
  refine ⟨hpcs.trans h.pcs, h.threads, h.ordered, fun c i => ?_, ?_, ?_, fun hdo => ?_⟩
  · rw [hstatus]
    exact h.cells c i
  · rw [hstatus]
    exact h.behind
  · rw [hstatus]
    exact h.bound
  · rw [hstatus] at hdo
    cases hok.symm.trans (h.marked hdo)

theorem reports_started {th : ℕ} {q : List ℕ} (hs : Startable s)
    (hcounts : ∀ c ∈ σ.instr_counts, 1 ≤ c) : Reports σ s [] .start (started th q s) := by
  have hstatus : (started th q s).ctx_switch_status = ⟨0, 0, false, false⟩ := hs.status
  refine ⟨(List.append_nil _).symm, fun x hx => absurd hx List.not_mem_nil, .nil, fun c i => ?_,
    fun count hcount => ?_, ?_, fun hdo => ?_⟩
  · rw [hstatus]
    constructor
    · rintro ⟨pc, hpc⟩
      cases hpc
    · rintro ⟨count, -, -, hc | ⟨-, hi⟩⟩
      · exact absurd hc (Nat.not_lt_zero c)
      · exact absurd hi (Nat.not_lt_zero i)
  · rw [hstatus] at hcount ⊢
    exact hcounts count (List.mem_of_getElem? hcount)
  · rw [hstatus]
    exact Nat.zero_le _
  · rw [hstatus] at hdo
    cases hdo

/-- Every run keeps its report. -/
theorem Logs.reports (hs : Startable s) (hσ : s.schedule = some σ) (hreport : σ.report = true)
    (hcounts : ∀ c ∈ σ.instr_counts, 1 ≤ c) (h₀ : Placed s .start s₀) (hf₀ : Follows σ s .start s₀)
    (hr₀ : Reports σ s [] .start s₀) (h : Logs s₀ log w r) : Reports σ s log w r.state := by
  induction h with
  | start => exact hr₀
  | @trap log w t e r hlog hok hrun ih =>
    have hp : Placed s w t := hlog.reaches.placed hs (fun _ _ h => h.1) h₀
    have hf : Follows σ s w t := hlog.reaches.follows hs hσ hcounts h₀ hf₀
    cases e with
    | touch touched pc =>
      obtain ⟨v, -, hv⟩ := bind_ok_iff.mp hrun
      cases hv
      exact Reports.touch hs hσ hreport hp hf ih hrun
    | step regs =>
      obtain ⟨v, hv, hr⟩ := bind_ok_iff.mp hrun
      cases hr
      rw [show scheduled w t (.step regs) = [] from rfl, List.append_nil]
      exact ih.handled hs hσ hcounts hp (equiv_hash_handler_iff.mp hv) _
    | syscall regs =>
      rw [show scheduled w t (.syscall regs) = [] from rfl, List.append_nil]
      exact ih.trapped hok.1 (hok.2 regs rfl) (equiv_syscall_handler_iff.mp hrun) _

/-- Between the instructions all cells are stored exactly when all context switches have happened. -/
theorem Reports.complete_iff (hs : Startable s) (hσ : s.schedule = some σ) (h : Reports σ s log w t)
    (hw : w.touched = false) : (∀ c i count, σ.instr_counts[c]? = some count → i < count →
      ∃ pc, (c, i, pc) ∈ log.map Touch.store) ↔ t.ctx_switch_status.ctx_switch = σ.n_ctx_switches := by
  have hdo : t.ctx_switch_status.do_instr_count = false := by
    by_contra hdo
    cases hw.symm.trans (h.marked (Bool.not_eq_false _ ▸ hdo))
  constructor
  · intro hall
    by_contra hne
    obtain ⟨count, hcount⟩ := (count_lt_iff hs hσ).mp (Nat.lt_of_le_of_ne h.bound hne)
    obtain ⟨-, -, -, hlt⟩ := (h.cells _ _).mp (hall _ _ count hcount (h.behind count hcount))
    rw [hdo, Bool.toNat_false] at hlt
    omega
  · intro hend c i count hcount hi
    refine (h.cells c i).mpr ⟨count, hcount, hi, .inl ?_⟩
    rw [hend]
    exact (count_lt_iff hs hσ).mpr ⟨count, hcount⟩

/-- With a report, `ctx_switch_handler` stores the touches that count for the schedule, each in the row
of its thread and in the order in which they are printed. What `print_schedule` prints between two
instructions, or after the run, depends on what the rows held before unless all context switches have
happened: so after a yield it may print garbage, and with a verdict it does not. -/
theorem report_printed (s : Checker (List ℕ)) (σ : Schedule) (hs : Startable s) (hσ : s.schedule = some σ)
    (hreport : σ.report = true) (hcounts : ∀ c ∈ σ.instr_counts, 1 ≤ c)
    (hfuncs : ∀ tid ∈ σ.tids, 1 ≤ tid ∧ tid ≤ σ.n_funcs) :
    ∃ s₀, equiv_run_start s = .ok s₀ ∧ ∀ log w r, Logs s₀ log w r →
      r.state.pcs = s.pcs ++ log.map Touch.store ∧ log.Pairwise Touch.Before ∧
      (∀ x ∈ log, σ.tids[x.switches]? = some x.tid) ∧
      (w.touched = false → ∀ msg, (∀ fresh fresh',
          print_schedule msg (pcsAfter fresh (log.map Touch.store)) σ =
            print_schedule msg (pcsAfter fresh' (log.map Touch.store)) σ) ↔
        r.state.ctx_switch_status.ctx_switch = σ.n_ctx_switches) := by
  obtain ⟨th, q, hstart, h₀, hfirst⟩ := hs.start
  have hf₀ := hs.follows_started (q := q) hcounts (hfirst σ hσ)
  refine ⟨_, hstart, fun log w r hlog => ?_⟩
  have hr := hlog.reports hs hσ hreport hcounts h₀ hf₀ (reports_started hs hcounts)
  refine ⟨hr.pcs, hr.ordered, hr.threads, fun hw msg => Iff.trans ?_ (hr.complete_iff hs hσ hw)⟩
  simp only [print_schedule_inj (hs.fits σ hσ) hreport hfuncs]
  constructor
  · intro hall c i count hcount hi
    -- a cell without a store is told by what it held before
    by_contra hnone
    have hsame := hall (fun _ _ => 0) (fun _ _ => 1) c i count hcount hi
    rw [pcsAfter_eq_fresh hnone, pcsAfter_eq_fresh hnone] at hsame
    exact absurd hsame (by decide)
  · intro hall fresh fresh' c i count hcount hi
    exact pcsAfter_congr (hall c i count hcount hi)

/-- Thread 1 is preempted after its shared touch, and what is printed is determined; or it yields
before, and it is not. -/
theorem report_printed_two : ∃ s₀, equiv_run_start twoThreads = .ok s₀ ∧
    (∃ log w r, Logs s₀ log w r ∧ log.map Touch.store = [(0, 0, 0x9000)] ∧ ∀ msg fresh fresh',
      print_schedule msg (pcsAfter fresh (log.map Touch.store)) ⟨[1, 2], [1], 1, 2, true⟩ =
        print_schedule msg (pcsAfter fresh' (log.map Touch.store)) ⟨[1, 2], [1], 1, 2, true⟩) ∧
    ∃ log w r, Logs s₀ log w r ∧ r.state.ctx_switch_status.yielded = true ∧ ∀ msg, ¬∀ fresh fresh',
      print_schedule msg (pcsAfter fresh (log.map Touch.store)) ⟨[1, 2], [1], 1, 2, true⟩ =
        print_schedule msg (pcsAfter fresh' (log.map Touch.store)) ⟨[1, 2], [1], 1, 2, true⟩ := by
  obtain ⟨s₀, hstart, hall⟩ := report_printed twoThreads ⟨[1, 2], [1], 1, 2, true⟩
    twoThreads_startable rfl rfl (by decide) (by decide)
  have hfirst : (equiv_run_start twoThreads).toOption.bind (fun s₀ =>
      (replay Scheduled [.touch {512#32} 0x9000, .step fun _ => 0] .start s₀).map fun x =>
        (x.1.touched, x.2.state.ctx_switch_status, x.2.state.pcs)) =
      some (false, ⟨1, 0, false, false⟩, [(0, 0, 0x9000)]) := by
    decide +kernel
  have hsecond : (equiv_run_start twoThreads).toOption.bind (fun s₀ =>
      (replay Scheduled [sysno EQUIV_YIELD] .start s₀).map fun x =>
        (x.1.touched, x.2.state.ctx_switch_status)) =
      some (false, ⟨0, 0, false, true⟩) := by
    decide +kernel
  rw [hstart] at hfirst hsecond
  obtain ⟨⟨w, r⟩, hreplay, heq⟩ := Option.map_eq_some_iff.mp hfirst
  obtain ⟨⟨w', r'⟩, hreplay', heq'⟩ := Option.map_eq_some_iff.mp hsecond
  simp only [Prod.mk.injEq] at heq heq'
  obtain ⟨hw, hstatus, hpcs⟩ := heq
  obtain ⟨hw', hstatus'⟩ := heq'
  obtain ⟨log, hlog⟩ := exists_logs (Reaches.start.replay hreplay)
  obtain ⟨log', hlog'⟩ := exists_logs (Reaches.start.replay hreplay')
  obtain ⟨hstores, -, -, hprint⟩ := hall log w r hlog
  obtain ⟨-, -, -, hprint'⟩ := hall log' w' r' hlog'
  refine ⟨s₀, hstart, ⟨log, w, r, hlog, ?_, fun msg => (hprint hw msg).mpr ?_⟩,
    log', w', r', hlog', ?_, fun msg hsame => ?_⟩
  · exact hstores.symm.trans hpcs
  · rw [hstatus]
  · rw [hstatus']
  · have hnone := (hprint' hw' msg).mp hsame
    rw [hstatus'] at hnone
    cases hnone

end Runs

end EquivChecker.ScheduleReport
