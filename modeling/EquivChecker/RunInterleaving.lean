import EquivChecker.Lockstep
import EquivChecker.ScheduledInterleaving
import EquivChecker.SwitchPoints
import EquivChecker.ThreadPlaces

/-!
# Runs are interleavings

What the handlers make of a schedule is the interleaving that the schedule prescribes: every
instruction of a run is one of the interleaving, and the registers that the checker has saved are
those of the threads that wait.
-/

namespace EquivChecker.RunInterleaving

open Interleaving Checker SwitchPoints

/-- The threads at a point between two instructions. -/
def config (s : Checker (List ℕ)) : Config ℕ (Option Regs) Addr (BitVec 8) where
  regs x :=
    if s.cur_thread = some x then some s.regs
    else if x ∈ s.equiv_runq then some (s.threads x).regs
    else none
  mem := s.mem

/-- No instruction branches to itself, so that each raises a mismatch fault of its own. -/
def Moves (p : Platform) : Prop :=
  ∀ regs mem touched w regs' mem', p.fetch regs mem = .exec touched w regs' mem' →
    regs' REGS_PC ≠ regs REGS_PC

/-- What is left of the schedule when the thread `th` runs after `c` switches, with `k` shared touches
since the last of them. -/
inductive Plans (tid : ℕ → ℕ) (ths : List ℕ) (σ : Schedule) : ℕ → ℕ → ℕ → List (ℕ × ℕ) → Prop where
  | done {th c k} (hdone : σ.n_ctx_switches ≤ c) : Plans tid ths σ th c k []
  | switch {th c k m next plan} (hlt : c < σ.n_ctx_switches) (hm : 0 < m)
      (hcount : σ.instr_counts[c]? = some (k + m)) (htid : σ.tids[c + 1]? = some (tid next))
      (hne : next ≠ th) (hmem : next ∈ ths) (h : Plans tid ths σ next (c + 1) 0 plan) :
      Plans tid ths σ th c k ((m, next) :: plan)

/-- The schedule is set, and no thread has exited. -/
structure Planned (tid : ℕ → ℕ) (ths : List ℕ) (shared : Finset Addr) (v : Checker (List ℕ)) (q : List ℕ)
    (i : ℕ) (plan : List (ℕ × ℕ)) (σ : Schedule) : Prop where
  schedule : v.schedule = some σ
  plans : Plans tid ths σ i v.ctx_switch_status.ctx_switch v.ctx_switch_status.instr_count plan
  all : (i :: q).Perm ths
  distinct : (ths.map tid).Nodup
  tids : ∀ x, (v.threads x).tid = tid x
  allocated : ths.length ≤ v.allocated
  shared_memory : v.shared_memory = some shared
  enabled : v.rw_tracker_enabled = true
  armed : v.armed = true
  touch_handler : v.touch_handler = true
  mismatch : v.mismatch = v.regs REGS_PC

/-- The thread `i` is about to execute an instruction, and the threads in `q` wait. -/
structure At (tid : ℕ → ℕ) (ths : List ℕ) (shared : Finset Addr) (v : Checker (List ℕ)) (q : List ℕ)
    (i : ℕ) (plan : List (ℕ × ℕ)) : Prop where
  cur : v.cur_thread = some i
  queue : v.equiv_runq = q
  nodup : (i :: q).Nodup
  unmarked : v.ctx_switch_status.do_instr_count = false
  plan : v.schedule = none ∧ plan = [] ∨ ∃ σ, Planned tid ths shared v q i plan σ

section Config
variable {p : Platform} {s t v : Checker (List ℕ)} {q l r : List ℕ} {th i next : ℕ} {regs : Regs} {mem : Mem}

theorem config_congr (hcur : t.cur_thread = s.cur_thread) (hq : t.equiv_runq = s.equiv_runq)
    (hregs : t.regs = s.regs) (hmem : t.mem = s.mem)
    (hthreads : ∀ x, s.cur_thread ≠ some x → t.threads x = s.threads x) : config t = config s := by
  rw [config, config, hcur, hq, hregs, hmem]
  congr 1
  funext x
  split_ifs with hx hmem
  · rfl
  · rw [hthreads x hx]
  · rfl

/-- Saving the registers of the running thread is not seen. -/
theorem config_saved (hcur : s.cur_thread = some th) : config (saved th s) = config s := by
  rw [saved_eq]
  refine config_congr rfl rfl rfl rfl fun x hx => ?_
  have hne : x ≠ th := by
    rintro rfl
    exact hx hcur
  exact Function.update_of_ne hne _ _

/-- Nor is a switch: the thread that is left goes to the queue with its registers. -/
theorem config_switch (hcur : s.cur_thread = some th) (hq : s.equiv_runq = l ++ next :: r)
    (hnodup : (th :: s.equiv_runq).Nodup) (hthreads : t.threads = Function.update s.threads th
      { s.threads th with regs := s.regs }) (htcur : t.cur_thread = some next)
    (htq : t.equiv_runq = r ++ l ++ [th]) (htregs : t.regs = (t.threads next).regs) (htmem : t.mem = s.mem) :
    config t = config s := by
  rw [hq] at hnodup
  have hnext : next ≠ th := by
    rintro rfl
    exact (List.nodup_cons.mp hnodup).1 (List.mem_append_right l List.mem_cons_self)
  rw [config, config, htcur, htq, htregs, htmem, hcur, hq, hthreads]
  congr 1
  funext x
  by_cases hxn : x = next
  · subst hxn
    have hcond : ¬some th = some x := fun h => hnext (Option.some.inj h).symm
    rw [if_pos rfl, if_neg hcond, if_pos (List.mem_append_right l List.mem_cons_self),
      Function.update_of_ne hnext]
  · rw [if_neg (fun h => hxn (Option.some.inj h).symm)]
    by_cases hxt : x = th
    · subst hxt
      rw [if_pos (List.mem_append_right _ (List.mem_singleton.mpr rfl)), Function.update_self, if_pos rfl]
    · have hmem : x ∈ r ++ l ++ [th] ↔ x ∈ l ++ next :: r := by
        simp only [List.mem_append, List.mem_cons, List.not_mem_nil, hxt, hxn]
        tauto
      rw [if_neg (fun h => hxt (Option.some.inj h).symm), Function.update_of_ne hxt]
      simp only [hmem]

variable (fp : Footprints p) {touched : Finset Addr} {w : Bool}

theorem config_regs (hcur : v.cur_thread = some i) : (config v).regs i = some v.regs := if_pos hcur

theorem exec_fetch (hcur : v.cur_thread = some i) (hfetch : p.fetch v.regs v.mem = .exec touched w regs mem) :
    fp.machine.exec ((config v).regs i) (config v).mem = (some regs, mem) := by
  rw [config_regs hcur]
  change execOne p (some v.regs) v.mem = _
  simp only [execOne, hfetch]

theorem event_exec (hcur : v.cur_thread = some i) (hfetch : p.fetch v.regs v.mem = .exec touched w regs mem) :
    (event fp.machine (config v) i).exits = false ∧
      (event fp.machine (config v) i).touched = (touched : Set Addr) := by
  constructor
  · rw [event, exec_fetch fp hcur hfetch]
    rfl
  · rw [Event.touched, event, config_regs hcur]
    exact (fp.touched hfetch).symm

/-- The checker with the effect of an ordinary instruction. -/
theorem config_exec (hcur : v.cur_thread = some i)
    (hfetch : p.fetch v.regs v.mem = .exec touched w regs mem) (htcur : t.cur_thread = v.cur_thread)
    (htq : t.equiv_runq = v.equiv_runq) (hthreads : t.threads = v.threads) (hregs : t.regs = regs)
    (hmem : t.mem = mem) : config t = Interleaving.step fp.machine (config v) i := by
  rw [Interleaving.step, exec_fetch fp hcur hfetch, config, htcur, htq, hthreads, hregs, hmem]
  congr 1
  funext x
  by_cases hx : x = i
  · subst hx
    rw [if_pos hcur, Function.update_self]
  · have hne : ¬v.cur_thread = some x := fun h => hx (Option.some.inj (h.symm.trans hcur))
    have hother : (config v).regs x = if x ∈ v.equiv_runq then some (v.threads x).regs else none := if_neg hne
    rw [Function.update_of_ne hx, hother, if_neg hne]

theorem exec_trap (hcur : v.cur_thread = some i) (hfetch : p.fetch v.regs v.mem = .swi regs) :
    fp.machine.exec ((config v).regs i) (config v).mem = (none, v.mem) := by
  rw [config_regs hcur]
  change execOne p (some v.regs) v.mem = _
  simp only [execOne, hfetch]

theorem event_trap (hcur : v.cur_thread = some i) (hfetch : p.fetch v.regs v.mem = .swi regs) :
    (event fp.machine (config v) i).exits = true := by
  rw [event, exec_trap fp hcur hfetch]
  rfl

/-- The checker when the next thread of the queue goes on after an exit. -/
theorem config_exit (hcur : v.cur_thread = some i) (hfetch : p.fetch v.regs v.mem = .swi regs)
    (hq : v.equiv_runq = next :: q) (hnodup : (i :: v.equiv_runq).Nodup)
    (hthreads : ∀ x, x ≠ i → t.threads x = v.threads x) (htcur : t.cur_thread = some next)
    (htq : t.equiv_runq = q) (htregs : t.regs = (t.threads next).regs) (htmem : t.mem = v.mem) :
    config t = Interleaving.step fp.machine (config v) i := by
  rw [hq] at hnodup
  obtain ⟨hi, hrest⟩ := List.nodup_cons.mp hnodup
  have hnext : next ≠ i := fun h => hi (h ▸ List.mem_cons_self)
  rw [Interleaving.step, exec_trap fp hcur hfetch, config, htcur, htq, htregs, htmem]
  congr 1
  funext x
  by_cases hx : x = i
  · subst hx
    have hxq : x ∉ q := fun h => hi (List.mem_cons_of_mem next h)
    rw [Function.update_self, if_neg (fun h => hnext (Option.some.inj h)), if_neg hxq]
  · have hne : ¬v.cur_thread = some x := fun h => hx (Option.some.inj (h.symm.trans hcur))
    have hother : (config v).regs x = if x ∈ v.equiv_runq then some (v.threads x).regs else none := if_neg hne
    rw [Function.update_of_ne hx, hother, hq]
    by_cases hxn : x = next
    · subst hxn
      rw [if_pos rfl, if_pos List.mem_cons_self, hthreads x hx]
    · have hmem : x ∈ next :: q ↔ x ∈ q := by
        rw [List.mem_cons, or_iff_right hxn]
      rw [if_neg (fun h => hxn (Option.some.inj h).symm), hthreads x hx]
      simp only [hmem]

end Config

section Steps
variable {p : Platform} {tid : ℕ → ℕ} {ths : List ℕ} {shared : Finset Addr} {s t v : Checker (List ℕ)}
  {q : List ℕ} {i : ℕ} {plan : List (ℕ × ℕ)} {σ : Schedule} {touched : Finset Addr} {w : Bool} {regs : Regs}
  {mem : Mem}

/-- The touch is marked for the schedule. -/
def Marks (shared touched : Finset Addr) (plan : List (ℕ × ℕ)) : Prop := plan ≠ [] ∧ shared ∩ touched ≠ ∅

instance : Decidable (Marks shared touched plan) := inferInstanceAs (Decidable (_ ∧ _))

/-- What a data abort may change. -/
structure Accessed (mark : Bool) (v t : Checker (List ℕ)) : Prop where
  cur_thread : t.cur_thread = v.cur_thread
  equiv_runq : t.equiv_runq = v.equiv_runq
  threads : t.threads = v.threads
  allocated : t.allocated = v.allocated
  schedule : t.schedule = v.schedule
  shared_memory : t.shared_memory = v.shared_memory
  enabled : t.rw_tracker_enabled = v.rw_tracker_enabled
  touch_handler : t.touch_handler = v.touch_handler
  mismatch : t.mismatch = v.mismatch
  status : t.ctx_switch_status = { v.ctx_switch_status with do_instr_count := mark }

theorem At.access (h : At tid ths shared v q i plan) (ht : access touched w v = .ok t) :
    Accessed (decide (Marks shared touched plan)) v t := by
  have hsame : { v.ctx_switch_status with do_instr_count := false } = v.ctx_switch_status := by
    rw [← h.unmarked]
  unfold Checker.access at ht
  rcases h.plan with ⟨hnone, rfl⟩ | ⟨σ, hσ⟩
  · have hmark : ¬Marks shared touched [] := fun hm => hm.1 rfl
    have hhandler : memory_touch_handler touched v = .ok v := by
      unfold memory_touch_handler
      rw [ctx_switch_handler_eq_self (fun σ hσ => by cases hσ.symm.trans hnone), ite_self]
    rw [decide_eq_false hmark]
    split at ht
    · obtain ⟨u, hu, ht⟩ := bind_ok_iff.mp ht
      cases hhandler.symm.trans hu
      cases ht
      exact ⟨rfl, rfl, rfl, rfl, rfl, rfl, rfl, rfl, rfl, hsame.symm⟩
    · cases ht
      exact ⟨rfl, rfl, rfl, rfl, rfl, rfl, rfl, rfl, rfl, hsame.symm⟩
  · by_cases hmark : Marks shared touched plan
    · have htouched : touched ≠ ∅ := by
        rintro rfl
        exact hmark.2 (Finset.inter_empty shared)
      have hlt : v.ctx_switch_status.ctx_switch < σ.n_ctx_switches := by
        cases hσ.plans with
        | done => exact absurd rfl hmark.1
        | switch hlt => exact hlt
      rw [if_pos ⟨hσ.armed, htouched⟩] at ht
      obtain ⟨u, hu, ht⟩ := bind_ok_iff.mp ht
      rw [memory_touch_handler, if_pos hσ.touch_handler,
        ctx_switch_handler_eq_marked hσ.schedule hlt hσ.shared_memory hmark.2] at hu
      cases hu
      cases ht
      rw [decide_eq_true hmark]
      exact ⟨rfl, rfl, rfl, rfl, rfl, rfl, rfl, rfl, rfl, rfl⟩
    · have hhandler : memory_touch_handler touched v = .ok v := by
        rw [memory_touch_handler, if_pos hσ.touch_handler]
        refine ctx_switch_handler_eq_self fun σ' hσ' hlt => ⟨shared, hσ.shared_memory, ?_⟩
        cases hσ.schedule.symm.trans hσ'
        by_contra hmeet
        refine hmark ⟨?_, hmeet⟩
        rintro rfl
        cases hσ.plans with
        | done hdone => exact absurd hlt (Nat.not_lt.mpr hdone)
      rw [decide_eq_false hmark]
      split at ht
      · obtain ⟨u, hu, ht⟩ := bind_ok_iff.mp ht
        cases hhandler.symm.trans hu
        cases ht
        exact ⟨rfl, rfl, rfl, rfl, rfl, rfl, rfl, rfl, rfl, hsame.symm⟩
      · cases ht
        exact ⟨rfl, rfl, rfl, rfl, rfl, rfl, rfl, rfl, rfl, hsame.symm⟩

theorem meets_iff : ((touched : Set Addr) ∩ (shared : Set Addr)).Nonempty ↔ shared ∩ touched ≠ ∅ := by
  rw [← Finset.coe_inter, Finset.coe_nonempty, Finset.inter_comm, Finset.nonempty_iff_ne_empty]

/-- Instructions of the run from `v` to `v'` come before what is prescribed from `v'` on. -/
structure Continues (fp : Footprints p) (tid : ℕ → ℕ) (ths : List ℕ) (shared : Finset Addr)
    (v v' : Checker (List ℕ)) (q : List ℕ) (i : ℕ) (plan : List (ℕ × ℕ)) (q' : List ℕ) (i' : ℕ)
    (plan' : List (ℕ × ℕ)) (d : ℕ) : Prop where
  here : At tid ths shared v' q' i' plan'
  config : config v' = Interleaving.step fp.machine (config v) i
  ctx_switch : v'.ctx_switch_status.ctx_switch = v.ctx_switch_status.ctx_switch + d
  yielded : v'.ctx_switch_status.yielded = v.ctx_switch_status.yielded
  obeys : ∀ σ n, Obeys fp.machine (shared : Set Addr) q' i' plan' (RunInterleaving.config v') σ n →
    Obeys fp.machine (shared : Set Addr) q i plan (RunInterleaving.config v) (i :: σ) (n + d)

variable {fp : Footprints p}

/-- The instruction of the thread `i` has been executed, and `x` is not yet at the next prefetch. -/
structure Executed (fp : Footprints p) (shared : Finset Addr) (plan : List (ℕ × ℕ)) (v x : Checker (List ℕ))
    (i : ℕ) (touched : Finset Addr) : Prop where
  accessed : Accessed (decide (Marks shared touched plan)) v x
  config : RunInterleaving.config x = Interleaving.step fp.machine (RunInterleaving.config v) i
  goes : (event fp.machine (RunInterleaving.config v) i).exits = false
  touched : (event fp.machine (RunInterleaving.config v) i).touched = (touched : Set Addr)

theorem At.executed (fp : Footprints p) (h : At tid ths shared v q i plan)
    (hfetch : p.fetch v.regs v.mem = .exec touched w regs mem) (ht : Checker.access touched w v = .ok t) :
    Executed fp shared plan v { t with regs, mem } i touched := by
  have hacc := h.access ht
  obtain ⟨hgoes, htouched⟩ := event_exec fp h.cur hfetch
  exact ⟨⟨hacc.cur_thread, hacc.equiv_runq, hacc.threads, hacc.allocated, hacc.schedule, hacc.shared_memory,
    hacc.enabled, hacc.touch_handler, hacc.mismatch, hacc.status⟩,
    config_exec fp h.cur hfetch hacc.cur_thread hacc.equiv_runq hacc.threads rfl rfl, hgoes, htouched⟩

variable {x : Checker (List ℕ)}

/-- Without a schedule the thread goes on. -/
theorem At.next_unscheduled (h : At tid ths shared v q i plan) (hnone : v.schedule = none)
    (hx : Executed fp shared plan v x i touched) (hs : prefetch x = .ok s) :
    Continues fp tid ths shared v s q i plan q i plan 0 := by
  have hplan : plan = [] := by
    rcases h.plan with ⟨-, hnil⟩ | ⟨σ, hσ⟩
    · exact hnil
    · cases hσ.schedule.symm.trans hnone
  subst hplan
  obtain ⟨hacc, hconfig, hgoes, -⟩ := hx
  have hdo : x.ctx_switch_status.do_instr_count = false := by
    rw [hacc.status]
    exact decide_eq_false (p := Marks shared touched []) fun hm => hm.1 rfl
  have hsteps : ∀ u : Checker (List ℕ), u.cur_thread = x.cur_thread → u.equiv_runq = x.equiv_runq →
      u.ctx_switch_status = x.ctx_switch_status → u.schedule = x.schedule →
      RunInterleaving.config u = RunInterleaving.config x →
      Continues fp tid ths shared v u q i [] q i [] 0 := by
    intro u hucur huq hustatus hschedule huconfig
    refine ⟨⟨(hucur.trans hacc.cur_thread).trans h.cur, (huq.trans hacc.equiv_runq).trans h.queue, h.nodup, ?_,
      .inl ⟨?_, rfl⟩⟩, huconfig.trans hconfig, ?_, ?_, fun σ n hobeys => ?_⟩
    · rw [hustatus, hdo]
    · rw [hschedule, hacc.schedule, hnone]
    · rw [hustatus, hacc.status]
      rfl
    · rw [hustatus, hacc.status]
    · rw [huconfig, hconfig] at hobeys
      exact .quiet hgoes (.inl rfl) hobeys
  unfold prefetch at hs
  split at hs
  · cases hs
    exact hsteps _ rfl rfl rfl rfl rfl
  · obtain ⟨u, hu, hs⟩ := bind_ok_iff.mp hs
    cases hs
    cases equiv_hash_handler_iff.mp hu with
    | @unmarked th hth _ =>
      have hsame := config_saved hth
      exact hsteps _ (saved_cur_thread th x) (saved_equiv_runq th x) (saved_ctx_switch_status th x)
        (saved_schedule th x) hsame
    | counted _ hmark => cases hmark.symm.trans hdo
    | switched _ hmark => cases hmark.symm.trans hdo

/-- What `equiv_hash_handler` leaves of the schedule that is set. -/
theorem Planned.handled {u : Checker (List ℕ)} {plan' : List (ℕ × ℕ)} {q' : List ℕ} {i' : ℕ} {mark : Bool}
    (h : Planned tid ths shared v q i plan σ) (hacc : Accessed mark v x) (hschedule : u.schedule = x.schedule)
    (hplans : Plans tid ths σ i' u.ctx_switch_status.ctx_switch u.ctx_switch_status.instr_count plan')
    (hall : (i' :: q').Perm (i :: q)) (hthreads : u.threads = (saved i x).threads)
    (hallocated : u.allocated = x.allocated) (hshared : u.shared_memory = x.shared_memory)
    (henabled : u.rw_tracker_enabled = x.rw_tracker_enabled) (harmed : u.armed = (saved i x).armed)
    (htouch : u.touch_handler = x.touch_handler) :
    Planned tid ths shared { u with mismatch := u.regs REGS_PC } q' i' plan' σ where
  schedule := (hschedule.trans hacc.schedule).trans h.schedule
  plans := hplans
  all := hall.trans h.all
  distinct := h.distinct
  tids y := by
    change (u.threads y).tid = tid y
    rw [hthreads, saved_tid, hacc.threads, h.tids]
  allocated := h.allocated.trans_eq (hallocated.trans hacc.allocated).symm
  shared_memory := (hshared.trans hacc.shared_memory).trans h.shared_memory
  enabled := (henabled.trans hacc.enabled).trans h.enabled
  armed := by
    change u.armed = true
    rw [harmed, saved_eq, hacc.enabled, h.enabled]
    rfl
  touch_handler := (htouch.trans hacc.touch_handler).trans h.touch_handler
  mismatch := rfl

theorem Planned.queue_distinct {u : Checker (List ℕ)} {l : List ℕ} (h : Planned tid ths shared v q i plan σ)
    (hu : u.equiv_runq = l) (hq : q = l) (htids : ∀ y, (u.threads y).tid = tid y) :
    (u.equiv_runq.map fun th => (u.threads th).tid).Nodup := by
  have hall : ((i :: q).map tid).Nodup := (h.all.map tid).nodup_iff.mpr h.distinct
  simp only [htids, hu, ← hq]
  exact (List.nodup_cons.mp hall).2

theorem Planned.queue_length {u : Checker (List ℕ)} {l : List ℕ} (h : Planned tid ths shared v q i plan σ)
    (hu : u.equiv_runq = l) (hq : q = l) (hallocated : u.allocated = v.allocated) :
    u.equiv_runq.length ≤ u.allocated := by
  have hlength := h.all.length_eq
  rw [List.length_cons] at hlength
  have hle := h.allocated
  rw [hu, ← hq, hallocated]
  omega

/-- The next thread of the schedule waits in the queue. -/
theorem Planned.retrieves (hσ : Planned tid ths shared v q i plan σ) (h : At tid ths shared v q i plan)
    {mark : Bool} (hacc : Accessed mark v x) {next : ℕ} (hne : next ≠ i) (hmem : next ∈ ths) :
    ∃ l r, q = l ++ next :: r ∧ next ∉ l ∧ retrieve_tid_from_queue (tid next) (counted_out i x) =
      .ok (next, { counted_out i x with equiv_runq := r ++ l }) := by
  have hin : next ∈ q := (List.mem_cons.mp (hσ.all.mem_iff.mpr hmem)).resolve_left hne
  obtain ⟨l, r, hsplit⟩ := List.append_of_mem hin
  have hnodup := h.nodup
  rw [hsplit] at hnodup
  have hl : next ∉ l := fun hmem =>
    List.disjoint_of_nodup_append (List.nodup_cons.mp hnodup).2 hmem List.mem_cons_self
  have hout : (counted_out i x).equiv_runq = l ++ next :: r :=
    (saved_equiv_runq i x).trans ((hacc.equiv_runq.trans h.queue).trans hsplit)
  have htids : ∀ y, ((counted_out i x).threads y).tid = tid y := by
    intro y
    rw [counted_out, saved_tid, hacc.threads, hσ.tids]
  have hfound := retrieve_tid_from_queue_eq hout (hσ.queue_distinct hout hsplit htids)
    (hσ.queue_length hout hsplit (hacc.allocated ▸ saved_allocated i x))
  rw [htids next] at hfound
  exact ⟨l, r, hsplit, hl, hfound⟩

/-- While the schedule is set, the thread goes on or the next one of the schedule does. -/
theorem At.next_scheduled (h : At tid ths shared v q i plan) (hσ : Planned tid ths shared v q i plan σ)
    (hx : Executed fp shared plan v x i touched) (hpc : x.regs REGS_PC ≠ v.regs REGS_PC)
    (hs : prefetch x = .ok s) : ∃ q' i' plan' d, Continues fp tid ths shared v s q i plan q' i' plan' d := by
  obtain ⟨hacc, hconfig, hgoes, htouched⟩ := hx
  have hcur : x.cur_thread = some i := hacc.cur_thread.trans h.cur
  rw [prefetch, if_neg (by rwa [hacc.mismatch, hσ.mismatch])] at hs
  obtain ⟨u, hu, hs⟩ := bind_ok_iff.mp hs
  cases hs
  have hstatus : x.ctx_switch_status.ctx_switch = v.ctx_switch_status.ctx_switch ∧
      x.ctx_switch_status.instr_count = v.ctx_switch_status.instr_count ∧
      x.ctx_switch_status.yielded = v.ctx_switch_status.yielded := by
    rw [hacc.status]
    exact ⟨rfl, rfl, rfl⟩
  obtain ⟨hctx, hinstr, hyielded⟩ := hstatus
  have hdo : x.ctx_switch_status.do_instr_count = decide (Marks shared touched plan) := by
    rw [hacc.status]
  have hxσ : x.schedule = some σ := hacc.schedule.trans hσ.schedule
  cases equiv_hash_handler_iff.mp hu with
  | @unmarked th hth hmark =>
    obtain rfl := Option.some.inj (hcur.symm.trans hth)
    have hquiet : ¬Marks shared touched plan := of_decide_eq_false (hdo.symm.trans hmark)
    have hsame := (config_saved hth).trans hconfig
    have hplans : Plans tid ths σ i (saved i x).ctx_switch_status.ctx_switch
        (saved i x).ctx_switch_status.instr_count plan := by
      rw [saved_ctx_switch_status, hctx, hinstr]
      exact hσ.plans
    have hplanned := hσ.handled hacc (saved_schedule i x) hplans (List.Perm.refl _) rfl (saved_allocated i x)
      (saved_shared_memory i x) (by rw [saved_eq]) rfl (by rw [saved_eq])
    refine ⟨q, i, plan, 0, ⟨(saved_cur_thread i x).trans hth, ?_, h.nodup, ?_, .inr ⟨σ, hplanned⟩⟩, hsame, ?_,
      ?_, fun τ n hobeys => ?_⟩
    · exact (saved_equiv_runq i x).trans (hacc.equiv_runq.trans h.queue)
    · exact (congrArg CtxSwitchStatus.do_instr_count (saved_ctx_switch_status i x)).trans hmark
    · exact (congrArg CtxSwitchStatus.ctx_switch (saved_ctx_switch_status i x)).trans hctx
    · exact (congrArg CtxSwitchStatus.yielded (saved_ctx_switch_status i x)).trans hyielded
    · refine .quiet hgoes ?_ (hsame ▸ hobeys)
      by_contra hnot
      obtain ⟨hne, hmeets⟩ := not_or.mp hnot
      rw [htouched, not_not, meets_iff] at hmeets
      exact hquiet ⟨hne, hmeets⟩
  | @counted th σ' count hth hmark hschedule hcount hlt =>
    obtain rfl := Option.some.inj (hcur.symm.trans hth)
    obtain rfl := Option.some.inj (hxσ.symm.trans hschedule)
    obtain ⟨hne, hmeets⟩ : Marks shared touched plan := of_decide_eq_true (hdo.symm.trans hmark)
    have hsame : RunInterleaving.config (Checker.counted i x) = _ := (config_saved hth).trans hconfig
    cases hσ.plans with
    | done => exact absurd rfl hne
    | @switch _ _ _ m next rest hlt' hm hcount' htid hnext hmem hplans =>
      rw [hctx, hcount'] at hcount
      obtain rfl := Option.some.inj hcount
      obtain ⟨m, rfl⟩ : ∃ k, m = k + 1 := ⟨m - 1, by omega⟩
      have hless : 0 < m := by omega
      have hcount'' : σ.instr_counts[x.ctx_switch_status.ctx_switch]? =
          some (x.ctx_switch_status.instr_count + 1 + m) := by
        rw [hctx, hcount', hinstr]
        congr 1
        omega
      have hrest : Plans tid ths σ i x.ctx_switch_status.ctx_switch (x.ctx_switch_status.instr_count + 1)
          ((m, next) :: rest) :=
        .switch (hctx ▸ hlt') hless hcount'' (hctx ▸ htid) hnext hmem (hctx ▸ hplans)
      have hplanned := hσ.handled (u := Checker.counted i x) hacc (saved_schedule i x) hrest
        (List.Perm.refl _) rfl (saved_allocated i x) (saved_shared_memory i x)
        (by rw [Checker.counted, saved_eq]) rfl (by rw [Checker.counted, saved_eq])
      refine ⟨q, i, (m, next) :: rest, 0,
        ⟨(saved_cur_thread i x).trans hth, ?_, h.nodup, rfl, .inr ⟨σ, hplanned⟩⟩, hsame, hctx, hyielded,
        fun τ n hobeys => ?_⟩
      · exact (saved_equiv_runq i x).trans (hacc.equiv_runq.trans h.queue)
      · refine .touch hgoes ?_ hless (hsame ▸ hobeys)
        rw [htouched, meets_iff]
        exact hmeets
  | @switched th σ' count tid' next' q' hth hmark hschedule hcount hle htid' hnext' =>
    obtain rfl := Option.some.inj (hcur.symm.trans hth)
    obtain rfl := Option.some.inj (hxσ.symm.trans hschedule)
    obtain ⟨hne, hmeets⟩ : Marks shared touched plan := of_decide_eq_true (hdo.symm.trans hmark)
    cases hσ.plans with
    | done => exact absurd rfl hne
    | @switch _ _ _ m next rest hlt' hm hcount' htid hnext hmem hplans =>
      rw [hctx, hcount'] at hcount
      obtain rfl := Option.some.inj hcount
      obtain rfl : m = 1 := by omega
      rw [hctx, htid] at htid'
      obtain rfl := Option.some.inj htid'
      obtain ⟨l, r, hsplit, hl, hfound⟩ := hσ.retrieves h hacc hnext hmem
      rw [hnext'] at hfound
      obtain ⟨rfl, hqueue⟩ := Prod.mk.inj (Except.ok.inj hfound)
      obtain rfl : q' = r ++ l := congrArg equiv_runq hqueue
      have hq : x.equiv_runq = q := hacc.equiv_runq.trans h.queue
      have hnodup : (i :: (l ++ next' :: r)).Nodup := hsplit ▸ h.nodup
      have hsame : RunInterleaving.config (mismatch_run next' { counted_out i x with
          equiv_runq := r ++ l ++ [i], cur_thread := some next' }) = _ :=
        (config_switch hth (hq.trans hsplit) (hq ▸ h.nodup)
          (by rw [mismatch_run, counted_out, saved_eq]) rfl rfl rfl
          (by rw [mismatch_run, counted_out, saved_eq])).trans hconfig
      obtain ⟨hperm, hnodup'⟩ := nodup_switch hnodup
      have hrest : Plans tid ths σ next' (x.ctx_switch_status.ctx_switch + 1) 0 rest := hctx ▸ hplans
      have hplanned := hσ.handled (u := mismatch_run next' { counted_out i x with
          equiv_runq := r ++ l ++ [i], cur_thread := some next' }) hacc (saved_schedule i x) hrest
        (hsplit ▸ hperm) rfl (saved_allocated i x) (saved_shared_memory i x)
        (by rw [mismatch_run, counted_out, saved_eq]) rfl (by rw [mismatch_run, counted_out, saved_eq])
      refine ⟨r ++ l ++ [i], next', rest, 1, ⟨rfl, rfl, hnodup', rfl, .inr ⟨σ, hplanned⟩⟩, hsame,
        congrArg (· + 1) hctx, hyielded, fun τ n hobeys => ?_⟩
      refine .switch hgoes ?_ hsplit hl (hsame ▸ hobeys)
      rw [htouched, meets_iff]
      exact hmeets

/-- An ordinary instruction, and the aborts around it. -/
theorem At.next (fp : Footprints p) (hmoves : Moves p) (h : At tid ths shared v q i plan)
    (hfetch : p.fetch v.regs v.mem = .exec touched w regs mem) (ht : Checker.access touched w v = .ok t)
    (hs : prefetch { t with regs, mem } = .ok s) :
    ∃ q' i' plan' d, Continues fp tid ths shared v s q i plan q' i' plan' d := by
  have hx := h.executed fp hfetch ht
  rcases h.plan with ⟨hnone, -⟩ | ⟨σ, hσ⟩
  · exact ⟨_, _, _, _, h.next_unscheduled hnone hx hs⟩
  · exact h.next_scheduled hσ hx (hmoves _ _ _ _ _ _ hfetch) hs

/-- The system call is the exit: the run ends, or the next thread of the queue goes on. -/
theorem At.trap (fp : Footprints p) (h : At tid ths shared v q i plan)
    (hfetch : p.fetch v.regs v.mem = .swi regs) {r : Progress (Checker (List ℕ))}
    (hr : Trapped { v with regs } r) :
    (∃ t, r = .finished t ∧ q = [] ∧ t.mem = v.mem ∧ t.ctx_switch_status = v.ctx_switch_status) ∨
      ∃ t next q', r = .running t ∧ q = next :: q' ∧ At tid ths shared t q' next [] ∧ prefetch t = .ok t ∧
        config t = Interleaving.step fp.machine (config v) i ∧ t.ctx_switch_status = v.ctx_switch_status := by
  have hexit : regs 0 = EQUIV_EXIT := (fp.trap hfetch).1
  cases hr with
  | putc_back _ _ hno => exact absurd (hno.symm.trans hexit) (by decide)
  | putc_next _ _ hno => exact absurd (hno.symm.trans hexit) (by decide)
  | yield _ _ hno => exact absurd (hno.symm.trans hexit) (by decide)
  | @exit_last th hcur _ _ hq => exact .inl ⟨_, rfl, h.queue.symm.trans hq, rfl, rfl⟩
  | @exit_next th next q' hcur _ _ hq =>
    obtain rfl := Option.some.inj (h.cur.symm.trans hcur)
    have hqueue : q = next :: q' := h.queue.symm.trans hq
    have hnodup := h.nodup
    rw [hqueue] at hnodup
    refine .inr ⟨_, next, q', rfl, hqueue,
      ⟨rfl, rfl, (List.nodup_cons.mp hnodup).2, h.unmarked, .inl ⟨rfl, rfl⟩⟩, if_pos rfl, ?_, rfl⟩
    refine config_exit fp h.cur hfetch hq ?_ (fun x hx => ?_) rfl rfl rfl rfl
    · rw [h.queue]
      exact h.nodup
    · exact Function.update_of_ne hx _ _

/-- A run from a point between two instructions executes what the schedule prescribes. -/
theorem At.run (fp : Footprints p) (hmoves : Moves p) {fuel : ℕ} (h : At tid ths shared v q i plan)
    (hs : prefetch s = .ok v) (hrun : steps p fuel s = .ok (.finished t)) : ∃ σ n,
      Obeys fp.machine (shared : Set Addr) q i plan (config v) σ n ∧
      (Interleaving.run fp.machine (config v) σ).mem = t.mem ∧
      t.ctx_switch_status.ctx_switch = v.ctx_switch_status.ctx_switch + n ∧
      t.ctx_switch_status.yielded = v.ctx_switch_status.yielded := by
  induction fuel generalizing s v q i plan with
  | zero => cases hrun
  | succ fuel ih =>
    obtain ⟨r, hstep, hrest⟩ := bind_ok_iff.mp hrun
    obtain ⟨v', hv', hstep⟩ := bind_ok_iff.mp hstep
    cases hs.symm.trans hv'
    cases hfetch : p.fetch v.regs v.mem with
    | exec touched w regs mem =>
      rw [hfetch] at hstep
      obtain ⟨u, hu, hstep⟩ := bind_ok_iff.mp hstep
      cases hstep
      have hfuel : ∃ s', prefetch { u with regs, mem } = .ok s' := by
        cases fuel with
        | zero => cases hrest
        | succ fuel =>
          obtain ⟨r, hr, -⟩ := bind_ok_iff.mp hrest
          obtain ⟨s', hs', -⟩ := bind_ok_iff.mp hr
          exact ⟨s', hs'⟩
      obtain ⟨s', hs'⟩ := hfuel
      obtain ⟨q', i', plan', d, hnext⟩ := h.next fp hmoves hfetch hu hs'
      obtain ⟨σ, n, hobeys, hmem, hctx, hyielded⟩ := ih hnext.here hs' hrest
      refine ⟨i :: σ, n + d, hnext.obeys σ n hobeys, ?_, ?_, hyielded.trans hnext.yielded⟩
      · rw [run_cons, ← hnext.config]
        exact hmem
      · rw [hctx, hnext.ctx_switch]
        omega
    | swi regs =>
      rw [hfetch] at hstep
      have hexit := event_trap fp h.cur hfetch
      rcases h.trap fp hfetch (equiv_syscall_handler_iff.mp hstep) with
        ⟨u, rfl, rfl, hmem, hstatus⟩ | ⟨u, next, q', rfl, rfl, hnext, hprefetch, hconfig, hstatus⟩
      · cases hrest
        refine ⟨[i], 0, .last hexit, ?_, ?_, ?_⟩
        · rw [run_cons, run_nil, Interleaving.step, exec_trap fp h.cur hfetch]
          exact hmem.symm
        · rw [hstatus]
          rfl
        · rw [hstatus]
      · obtain ⟨σ, n, hobeys, hmem, hctx, hyielded⟩ := ih hnext hprefetch hrest
        rw [hconfig] at hobeys hmem
        refine ⟨i :: σ, n, .exit hexit hobeys, hmem, ?_, ?_⟩
        · rw [hctx, hstatus]
        · rw [hyielded, hstatus]

end Steps

end EquivChecker.RunInterleaving
