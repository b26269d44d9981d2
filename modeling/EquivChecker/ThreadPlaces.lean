import EquivChecker.StepEffect

/-!
# Where the threads are

A run of the checker is a sequence of traps: data aborts on touched memory, prefetch
aborts before single steps, and system calls. At any time every thread runs, is queued
or has exited, and just one of these; control returns when all have exited.
-/

namespace EquivChecker

/-- Why the checker is entered, with the registers of the running thread. -/
inductive Trap where
  | touch (touched : Finset Addr) (pc : Word)
  | step (regs : Regs)
  | syscall (regs : Regs)

/-- What a run shows from outside: whether the running thread has touched shared memory
since its last step, the shared touches it has completed since it was switched to, the
switches that steps have made, and the threads that have exited. -/
structure Watch where
  touched : Bool
  completed : ℕ
  switches : ℕ
  exited : List ℕ

def Watch.start : Watch := ⟨false, 0, 0, []⟩

/-- The running thread, if control has not returned. -/
def Progress.running_thread : Progress (Checker (List ℕ)) → List ℕ
  | .running s => s.cur_thread.toList
  | .finished _ => []

/-- The order of thread numbers to run and the instruction counts fit each other and the queue. -/
structure Schedule.Fits (σ : Schedule) (tid : ℕ → ℕ) (queue : List ℕ) : Prop where
  tids_length : σ.tids.length = σ.n_ctx_switches + 1
  counts_length : σ.instr_counts.length = σ.n_ctx_switches
  drawn : ∀ i ∈ σ.tids, ∃ th ∈ queue, tid th = i
  adjacent : σ.tids.IsChain (· ≠ ·)

namespace Checker

def handle (e : Trap) (s : Checker (List ℕ)) : Except Fault (Progress (Checker (List ℕ))) :=
  match e with
  | .touch touched pc => do .ok (.running (← ctx_switch_handler touched pc s))
  | .step regs => do .ok (.running (← equiv_hash_handler { s with regs }))
  | .syscall regs => equiv_syscall_handler { s with regs }

end Checker

/-- The view of a run after one more trap. -/
def Watch.observe (s : Checker (List ℕ)) (e : Trap) (r : Progress (Checker (List ℕ))) (w : Watch) :
    Watch :=
  match e with
  | .touch touched _ =>
    { w with touched := w.touched || decide (s.shared_memory.getD ∅ ∩ touched ≠ ∅) }
  | .step _ =>
    if r.state.cur_thread = s.cur_thread then
      { w with touched := false, completed := w.completed + w.touched.toNat }
    else { w with touched := false, completed := 0, switches := w.switches + 1 }
  | .syscall regs =>
    { w with
      completed := 0
      exited := if regs 0 = EQUIV_EXIT then w.exited ++ s.cur_thread.toList else w.exited }

/-- A shared touch is followed by a step before any system call. -/
def Trap.Allowed (w : Watch) : Trap → Prop
  | .syscall _ => w.touched = false
  | _ => True

namespace Checker

/-- The traps that lead from a state to another, each of them meeting a condition. -/
inductive Reaches (ok : Watch → Trap → Prop) (s₀ : Checker (List ℕ)) :
    Watch → Progress (Checker (List ℕ)) → Prop where
  | start : Reaches ok s₀ .start (.running s₀)
  | trap {w : Watch} {s : Checker (List ℕ)} {e : Trap} {r : Progress (Checker (List ℕ))}
      (h : Reaches ok s₀ w (.running s)) (hok : ok w e) (hrun : s.handle e = .ok r) :
      Reaches ok s₀ (w.observe s e r) r

/-- The queue holds each thread once, and a schedule that is set is about these threads. -/
structure Startable (s : Checker (List ℕ)) : Prop where
  nonempty : s.equiv_runq ≠ []
  tids : (s.equiv_runq.map fun th => (s.threads th).tid).Nodup
  allocated : ∀ th ∈ s.equiv_runq, th < s.allocated
  status : s.ctx_switch_status = ⟨0, 0, false, false⟩
  fits : ∀ σ, s.schedule = some σ → σ.Fits (fun th => (s.threads th).tid) s.equiv_runq
  shared : s.schedule ≠ none → s.shared_memory ≠ none

section Retrieve

/-- The loop turns the queue until the thread that is looked for is in front. -/
theorem retrieveLoop_eq {threads : ℕ → EqTh} {tid first_tid fuel x y : ℕ} {q l r : List ℕ}
    (hq : y :: q = l ++ x :: r) (hx : (threads x).tid = tid)
    (hl : ∀ z ∈ l, (threads z).tid ≠ tid) (hfirst : ∀ z ∈ l.tail, (threads z).tid ≠ first_tid)
    (hne : l ≠ [] → tid ≠ first_tid) (hfuel : l.length ≤ fuel) :
    retrieveLoop threads tid first_tid fuel y q = .ok (x, r ++ l) := by
  induction l generalizing y q r fuel with
  | nil =>
    obtain ⟨rfl, rfl⟩ := List.cons.inj hq
    cases fuel <;> simp [retrieveLoop, hx]
  | cons z l ih =>
    rw [List.cons_append] at hq
    obtain ⟨rfl, rfl⟩ := List.cons.inj hq
    obtain ⟨fuel, rfl⟩ := Nat.exists_eq_succ_of_ne_zero (Nat.ne_of_gt (Nat.zero_lt_of_lt hfuel))
    obtain ⟨u, v, huv⟩ : ∃ u v, l ++ x :: r = u :: v := by
      cases l with
      | nil => exact ⟨x, r, rfl⟩
      | cons u l => exact ⟨u, l ++ x :: r, rfl⟩
    have hu : (threads u).tid ≠ first_tid := by
      cases l with
      | nil =>
        obtain ⟨rfl, -⟩ := List.cons.inj huv
        rw [hx]
        exact hne (List.cons_ne_nil _ _)
      | cons a l =>
        obtain ⟨rfl, -⟩ := List.cons.inj huv
        exact hfirst a List.mem_cons_self
    have hturned : u :: (v ++ [y]) = l ++ x :: (r ++ [y]) := by
      rw [← List.cons_append, ← huv, List.append_assoc, List.cons_append]
    have hrest := ih hturned (fun z hz => hl z (List.mem_cons_of_mem y hz))
      (fun z hz => hfirst z (List.mem_of_mem_tail hz)) (fun _ => hne (List.cons_ne_nil _ _))
      (Nat.le_of_succ_le_succ hfuel)
    rw [retrieveLoop, if_neg (hl y List.mem_cons_self), huv]
    simp only [RunQueue.list_pop, List.head?_cons, List.tail_cons, RunQueue.list_append]
    rw [if_neg hu, hrest, List.append_assoc]
    rfl

/-- A queued thread is found. -/
theorem retrieve_tid_from_queue_eq {s : Checker (List ℕ)} {x : ℕ} {l r : List ℕ}
    (hq : s.equiv_runq = l ++ x :: r)
    (htids : (s.equiv_runq.map fun th => (s.threads th).tid).Nodup)
    (hlen : s.equiv_runq.length ≤ s.allocated) :
    retrieve_tid_from_queue (s.threads x).tid s = .ok (x, { s with equiv_runq := r ++ l }) := by
  rw [hq, List.map_append, List.map_cons] at htids
  obtain ⟨hl, -, hlr⟩ := List.nodup_append.mp htids
  have hneq : ∀ z ∈ l, (s.threads z).tid ≠ (s.threads x).tid := fun z hz heq =>
    hlr _ (List.mem_map_of_mem hz) _ List.mem_cons_self heq
  rw [hq, List.length_append] at hlen
  have hloop : ∀ y q, s.equiv_runq = y :: q →
      retrieveLoop s.threads (s.threads x).tid (s.threads y).tid s.allocated y q = .ok (x, r ++ l) := by
    intro y q hyq
    refine retrieveLoop_eq (hyq.symm.trans hq) rfl hneq ?_ ?_ (by omega)
    · intro z hz
      cases l with
      | nil => cases hz
      | cons a l =>
        obtain ⟨rfl, -⟩ := List.cons.inj (hyq.symm.trans hq)
        intro heq
        refine (List.nodup_cons.mp hl).1 (List.mem_map.mpr ⟨z, hz, heq⟩)
    · intro hne
      cases l with
      | nil => exact absurd rfl hne
      | cons a l =>
        obtain ⟨rfl, -⟩ := List.cons.inj (hyq.symm.trans hq)
        exact (hneq y List.mem_cons_self).symm
  unfold retrieve_tid_from_queue
  cases hyq : s.equiv_runq with
  | nil => simp [hq] at hyq
  | cons y q =>
    simp only [RunQueue.list_pop, List.head?_cons, List.tail_cons]
    rw [hloop y q hyq]
    rfl

end Retrieve

/-- Where the threads of the queue of `s` are, and what a schedule that is still set says. -/
structure Placed (s : Checker (List ℕ)) (w : Watch) (t : Checker (List ℕ)) : Prop where
  places : (t.cur_thread.toList ++ t.equiv_runq ++ w.exited).Perm s.equiv_runq
  cur : t.cur_thread ≠ none
  tids : ∀ th, (t.threads th).tid = (s.threads th).tid
  allocated : t.allocated = s.allocated
  shared : t.shared_memory = s.shared_memory
  pending : t.ctx_switch_status.do_instr_count = true → w.touched = true ∧
    ∃ σ, t.schedule = some σ ∧ t.ctx_switch_status.ctx_switch < σ.n_ctx_switches
  schedule : ∀ σ, t.schedule = some σ → s.schedule = some σ ∧ w.exited = [] ∧
    (t.ctx_switch_status.ctx_switch < σ.n_ctx_switches → ∀ th, t.cur_thread = some th →
      σ.tids[t.ctx_switch_status.ctx_switch]? = some (s.threads th).tid)

section Steps
variable {s t v : Checker (List ℕ)} {w : Watch} {σ : Schedule} {th : ℕ} {touched : Finset Addr}
  {pc : Word} {regs : Regs} {r : Progress (Checker (List ℕ))}

/-- What the handler of a touch does to the state. -/
def withTouch (pc : Word) (s : Checker (List ℕ)) (σ : Schedule) : Checker (List ℕ) :=
  { s with
    pcs := if σ.report then
        s.pcs ++ [(s.ctx_switch_status.ctx_switch, s.ctx_switch_status.instr_count, pc)]
      else s.pcs
    ctx_switch_status := { s.ctx_switch_status with do_instr_count := true } }

/-- A touch is marked when the schedule has switches left and the memory is shared. -/
theorem ctx_switch_handler_eq_marked {sh : Finset Addr} (hσ : s.schedule = some σ)
    (hlt : s.ctx_switch_status.ctx_switch < σ.n_ctx_switches) (hsh : s.shared_memory = some sh)
    (hmeet : sh ∩ touched ≠ ∅) : ctx_switch_handler touched pc s = .ok (withTouch pc s σ) := by
  unfold ctx_switch_handler
  split
  · rename_i hnone
    cases hσ.symm.trans hnone
  · rename_i σ' hσ'
    cases hσ.symm.trans hσ'
    rw [if_neg (Nat.not_le.mpr hlt)]
    split
    · rename_i hnone
      cases hsh.symm.trans hnone
    · rename_i sh' hsh'
      cases hsh.symm.trans hsh'
      rw [if_pos hmeet, withTouch]
      cases σ.report <;> rfl

theorem ctx_switch_handler_eq_self (h : ∀ σ, s.schedule = some σ →
    s.ctx_switch_status.ctx_switch < σ.n_ctx_switches →
      ∃ sh, s.shared_memory = some sh ∧ sh ∩ touched = ∅) :
    ctx_switch_handler touched pc s = .ok s := by
  unfold ctx_switch_handler
  split
  · rfl
  · rename_i σ hσ
    split
    · rfl
    · rename_i hlt
      obtain ⟨sh, hsh, hmeet⟩ := h σ hσ (Nat.lt_of_not_le hlt)
      split
      · rename_i hnone
        cases hsh.symm.trans hnone
      · rename_i sh' hsh'
        cases hsh.symm.trans hsh'
        rw [if_neg (not_not_intro hmeet)]

/-- A touch is handled: it is marked if a switch is left and shared memory is touched. -/
theorem Placed.touch (hs : Startable s) (h : Placed s w t) (touched : Finset Addr) (pc : Word) :
    (∃ σ, t.schedule = some σ ∧ t.ctx_switch_status.ctx_switch < σ.n_ctx_switches ∧
      t.shared_memory.getD ∅ ∩ touched ≠ ∅ ∧ ctx_switch_handler touched pc t = .ok (withTouch pc t σ)) ∨
    ((∀ σ, t.schedule = some σ → t.ctx_switch_status.ctx_switch < σ.n_ctx_switches →
      t.shared_memory.getD ∅ ∩ touched = ∅) ∧ ctx_switch_handler touched pc t = .ok t) := by
  have hshared : ∀ σ, t.schedule = some σ → ∃ sh, t.shared_memory = some sh := by
    intro σ hσ
    have hne := hs.shared (by simp [(h.schedule σ hσ).1])
    rw [h.shared]
    exact Option.ne_none_iff_exists'.mp hne
  by_cases hmark : ∃ σ, t.schedule = some σ ∧
      t.ctx_switch_status.ctx_switch < σ.n_ctx_switches ∧ t.shared_memory.getD ∅ ∩ touched ≠ ∅
  · obtain ⟨σ, hσ, hlt, hmeet⟩ := hmark
    obtain ⟨sh, hsh⟩ := hshared σ hσ
    refine .inl ⟨σ, hσ, hlt, hmeet, ctx_switch_handler_eq_marked hσ hlt hsh ?_⟩
    simpa [hsh] using hmeet
  · push Not at hmark
    refine .inr ⟨hmark, ctx_switch_handler_eq_self fun σ hσ hlt => ?_⟩
    obtain ⟨sh, hsh⟩ := hshared σ hσ
    have hmeet := hmark σ hσ hlt
    exact ⟨sh, hsh, by simpa [hsh] using hmeet⟩

theorem Startable.length_le (hs : Startable s) : s.equiv_runq.length ≤ s.allocated := by
  have hsub : s.equiv_runq ⊆ List.range s.allocated := fun th hth =>
    List.mem_range.mpr (hs.allocated th hth)
  have hle := (List.subperm_of_subset (List.Nodup.of_map _ hs.tids) hsub).length_le
  rwa [List.length_range] at hle

/-- The queue of a later state is part of the queue at the start. -/
theorem Placed.subperm (h : Placed s w t) : t.equiv_runq.Subperm s.equiv_runq := by
  have hsub : t.equiv_runq.Sublist (t.cur_thread.toList ++ t.equiv_runq ++ w.exited) :=
    (List.sublist_append_right _ _).trans (List.sublist_append_left _ _)
  exact hsub.subperm.trans h.places.subperm

/-- The next thread of the schedule waits in the queue. -/
theorem Placed.target (hs : Startable s) (h : Placed s w t) (hσ : t.schedule = some σ)
    (hlt : t.ctx_switch_status.ctx_switch < σ.n_ctx_switches) (hcur : t.cur_thread = some th) :
    ∃ next l r, σ.tids[t.ctx_switch_status.ctx_switch + 1]? = some (s.threads next).tid ∧
      t.equiv_runq = l ++ next :: r ∧ next ≠ th := by
  obtain ⟨hσ', hexited, hrunning⟩ := h.schedule σ hσ
  have hfits := hs.fits σ hσ'
  have hlen : t.ctx_switch_status.ctx_switch + 1 < σ.tids.length := by
    rw [hfits.tids_length]
    exact Nat.succ_lt_succ hlt
  obtain ⟨next, hnext, htid⟩ := hfits.drawn _ (List.getElem_mem hlen)
  have hother : next ≠ th := by
    rintro rfl
    have hthis := hrunning hlt next hcur
    rw [List.getElem?_eq_getElem (Nat.lt_of_succ_lt hlen), Option.some_inj] at hthis
    exact List.isChain_iff_getElem.mp hfits.adjacent _ hlen (hthis.trans htid)
  have hmem : next ∈ t.equiv_runq := by
    have hplaces := h.places.mem_iff.mpr hnext
    rw [hexited, hcur, List.append_nil, Option.toList_some] at hplaces
    exact (List.mem_cons.mp hplaces).resolve_left hother
  obtain ⟨l, r, hlr⟩ := List.append_of_mem hmem
  refine ⟨next, l, r, ?_, hlr, hother⟩
  rw [List.getElem?_eq_getElem hlen, ← htid]

theorem Placed.retrieve (hs : Startable s) (h : Placed s w t) {next : ℕ} {l r : List ℕ}
    (hq : t.equiv_runq = l ++ next :: r) :
    retrieve_tid_from_queue (s.threads next).tid (counted_out th { t with regs }) =
      .ok (next, { counted_out th { t with regs } with equiv_runq := r ++ l }) := by
  have htids : ∀ x, ((counted_out th { t with regs }).threads x).tid = (s.threads x).tid :=
    fun x => (saved_tid th x { t with regs }).trans (h.tids x)
  rw [← htids next]
  refine retrieve_tid_from_queue_eq ?_ ?_ ?_
  · simpa [counted_out, saved, save, setThread] using hq
  · simp only [htids]
    have hq' : (counted_out th { t with regs }).equiv_runq = t.equiv_runq := by
      simp [counted_out, saved, save, setThread]
    rw [hq']
    obtain ⟨l', hperm, hsub⟩ := h.subperm
    exact (hperm.map _).nodup_iff.mp (hs.tids.sublist (hsub.map _))
  · have hlen := h.subperm.length_le.trans hs.length_le
    rw [← h.allocated] at hlen
    simpa [counted_out, saved, save, setThread] using hlen

theorem Placed.same_schedule (h : Placed s w t) {σ' : Schedule} (hσ : s.schedule = some σ)
    (hσ' : t.schedule = some σ') : σ = σ' :=
  Option.some_inj.mp (hσ.symm.trans (h.schedule σ' hσ').1)

/-- A switch goes to the next thread of the schedule, and the queue is turned up to it. -/
theorem Placed.switched_to (hs : Startable s) (h : Placed s w t) {next tid : ℕ} {q : List ℕ}
    (hcur : t.cur_thread = some th) (hdo : t.ctx_switch_status.do_instr_count = true)
    (hσ : t.schedule = some σ) (htid : σ.tids[t.ctx_switch_status.ctx_switch + 1]? = some tid)
    (hnext : retrieve_tid_from_queue tid (counted_out th { t with regs }) =
      .ok (next, { counted_out th { t with regs } with equiv_runq := q })) :
    t.ctx_switch_status.ctx_switch < σ.n_ctx_switches ∧ tid = (s.threads next).tid ∧ next ≠ th ∧
      ∃ l r, t.equiv_runq = l ++ next :: r ∧ q = r ++ l := by
  obtain ⟨-, σ', hσ', hlt⟩ := h.pending hdo
  cases hσ.symm.trans hσ'
  obtain ⟨next', l, r, htid', hq, hother⟩ := h.target hs hσ hlt hcur
  cases htid.symm.trans htid'
  obtain ⟨rfl, heq⟩ := Prod.mk.inj (Except.ok.inj (hnext.symm.trans (h.retrieve hs hq)))
  exact ⟨hlt, rfl, hother, l, r, hq, congrArg equiv_runq heq⟩

/-- A step is handled. -/
theorem Placed.exists_step (hs : Startable s) (h : Placed s w t) (regs : Regs) :
    ∃ v, Handled { t with regs } v := by
  obtain ⟨th, hcur⟩ := Option.ne_none_iff_exists'.mp h.cur
  cases hdo : t.ctx_switch_status.do_instr_count with
  | false => exact ⟨_, .unmarked hcur hdo⟩
  | true =>
    obtain ⟨-, σ, hσ, hlt⟩ := h.pending hdo
    have hlen : t.ctx_switch_status.ctx_switch < σ.instr_counts.length := by
      rw [(hs.fits σ (h.schedule σ hσ).1).counts_length]
      exact hlt
    have hcount := List.getElem?_eq_getElem hlen
    by_cases hle : σ.instr_counts[t.ctx_switch_status.ctx_switch] ≤ t.ctx_switch_status.instr_count + 1
    · obtain ⟨next, l, r, htid, hq, -⟩ := h.target hs hσ hlt hcur
      exact ⟨_, .switched hcur hdo hσ hcount hle htid (h.retrieve hs hq)⟩
    · exact ⟨_, .counted hcur hdo hσ hcount (Nat.lt_of_not_le hle)⟩

theorem observe_same (h : v.cur_thread = t.cur_thread) : w.observe t (.step regs) (.running v) =
    { w with touched := false, completed := w.completed + w.touched.toNat } := if_pos h

theorem observe_other (h : v.cur_thread ≠ t.cur_thread) : w.observe t (.step regs) (.running v) =
    { w with touched := false, completed := 0, switches := w.switches + 1 } := if_neg h

/-- A state that differs from a placed one in nothing that places are about. -/
theorem Placed.congr {w' : Watch} (h : Placed s w t) (hexited : w'.exited = w.exited)
    (hq : v.equiv_runq = t.equiv_runq) (hcur : v.cur_thread = t.cur_thread)
    (htids : ∀ x, (v.threads x).tid = (t.threads x).tid) (hallocated : v.allocated = t.allocated)
    (hshared : v.shared_memory = t.shared_memory) (hschedule : v.schedule = t.schedule)
    (hctx : v.ctx_switch_status.ctx_switch = t.ctx_switch_status.ctx_switch)
    (hpending : v.ctx_switch_status.do_instr_count = true → w'.touched = true ∧
      ∃ σ, v.schedule = some σ ∧ v.ctx_switch_status.ctx_switch < σ.n_ctx_switches) :
    Placed s w' v where
  places := by
    rw [hexited, hq, hcur]
    exact h.places
  cur := hcur ▸ h.cur
  tids x := (htids x).trans (h.tids x)
  allocated := hallocated.trans h.allocated
  shared := hshared.trans h.shared
  pending := hpending
  schedule := by
    rw [hexited, hctx, hcur, hschedule]
    exact h.schedule

theorem Placed.handle_touch (hs : Startable s) (h : Placed s w t) (touched : Finset Addr) (pc : Word) :
    ∃ v, t.handle (.touch touched pc) = .ok (.running v) ∧
      Placed s (w.observe t (.touch touched pc) (.running v)) v := by
  have hkeep : t.ctx_switch_status.do_instr_count = true →
      (w.touched || decide (t.shared_memory.getD ∅ ∩ touched ≠ ∅)) = true ∧
        ∃ σ, t.schedule = some σ ∧ t.ctx_switch_status.ctx_switch < σ.n_ctx_switches := by
    intro hdo
    obtain ⟨htouched, hσ⟩ := h.pending hdo
    exact ⟨by rw [htouched, Bool.true_or], hσ⟩
  rcases h.touch hs touched pc with ⟨σ, hσ, hlt, hmeet, hrun⟩ | ⟨-, hrun⟩
  · refine ⟨withTouch pc t σ, by rw [handle, hrun]; rfl, ?_⟩
    refine h.congr rfl rfl rfl (fun _ => rfl) rfl rfl rfl rfl fun _ => ⟨?_, σ, hσ, hlt⟩
    simp [Watch.observe, hmeet]
  · exact ⟨t, by rw [handle, hrun]; rfl,
      h.congr rfl rfl rfl (fun _ => rfl) rfl rfl rfl rfl hkeep⟩

theorem Placed.handled (hs : Startable s) (h : Placed s w t) (hv : Handled { t with regs } v) :
    Placed s (w.observe t (.step regs) (.running v)) v := by
  cases hv with
  | @unmarked th hcur hdo =>
    have hsame : (saved th { t with regs }).cur_thread = t.cur_thread := saved_cur_thread _ _
    rw [observe_same hsame]
    refine h.congr rfl (saved_equiv_runq _ _) (saved_cur_thread _ _) (saved_tid th · { t with regs })
      (saved_allocated _ _) (saved_shared_memory _ _) (saved_schedule _ _) ?_ fun hdo' => ?_
    · rw [saved_ctx_switch_status]
    · rw [saved_ctx_switch_status, hdo] at hdo'
      cases hdo'
  | @counted th σ count hcur hdo hσ hcount hlt =>
    have hsame : (Checker.counted th { t with regs }).cur_thread = t.cur_thread :=
      saved_cur_thread th { t with regs }
    rw [observe_same hsame]
    exact h.congr rfl (saved_equiv_runq th { t with regs }) (saved_cur_thread th { t with regs })
      (saved_tid th · { t with regs }) (saved_allocated th { t with regs })
      (saved_shared_memory th { t with regs }) (saved_schedule th { t with regs }) rfl
      fun hdo' => by cases hdo'
  | @switched th σ count tid next q hcur hdo hσ hcount hle htid hnext =>
    obtain ⟨-, rfl, hother, l, r, hq, hrest⟩ := h.switched_to hs hcur hdo hσ htid hnext
    have hcur' : t.cur_thread = some th := hcur
    have hσs : s.schedule = some σ ∧ w.exited = [] := ⟨(h.schedule σ hσ).1, (h.schedule σ hσ).2.1⟩
    have hnew : (mismatch_run next { counted_out th { t with regs } with
        equiv_runq := q ++ [th], cur_thread := some next }).cur_thread ≠ t.cur_thread := by
      rw [hcur']
      exact fun heq => hother (Option.some_inj.mp heq)
    rw [observe_other hnew]
    constructor
    · change ((some next).toList ++ (q ++ [th]) ++ w.exited).Perm s.equiv_runq
      refine List.Perm.trans (List.perm_iff_count.mpr fun a => ?_) h.places
      rw [hrest, hcur', hq]
      simp only [Option.toList_some, List.count_append, List.count_cons, List.count_nil]
      omega
    · exact Option.some_ne_none next
    · exact fun x => (saved_tid th x { t with regs }).trans (h.tids x)
    · exact (saved_allocated th { t with regs }).trans h.allocated
    · exact (saved_shared_memory th { t with regs }).trans h.shared
    · intro hdo'
      cases hdo'
    · intro σ' hσ'
      cases hσ.symm.trans ((saved_schedule th { t with regs }).symm.trans hσ')
      refine ⟨hσs.1, hσs.2, fun _ x hx => ?_⟩
      cases hx
      exact htid

theorem Placed.handle_step (hs : Startable s) (h : Placed s w t) (regs : Regs) :
    ∃ v, t.handle (.step regs) = .ok (.running v) ∧
      Placed s (w.observe t (.step regs) (.running v)) v := by
  obtain ⟨v, hv⟩ := h.exists_step hs regs
  refine ⟨v, ?_, h.handled hs hv⟩
  rw [handle, equiv_hash_handler_iff.mpr hv]
  rfl

/-- Where the threads are in a run that may have ended. -/
def PlacedIn (s : Checker (List ℕ)) (w : Watch) : Progress (Checker (List ℕ)) → Prop
  | .running t => Placed s w t
  | .finished t => t.equiv_runq = [] ∧ w.exited.Perm s.equiv_runq

theorem save_tid (th x : ℕ) (s : Checker (List ℕ)) : ((save th s).threads x).tid = (s.threads x).tid := by
  by_cases hx : x = th
  · subst hx
    simp [save, setThread]
  · simp [save, setThread, hx]

theorem observe_exit (h : regs 0 = EQUIV_EXIT) : (w.observe t (.syscall regs) r).exited =
    w.exited ++ t.cur_thread.toList := if_pos h

theorem observe_other_call (h : regs 0 ≠ EQUIV_EXIT) : (w.observe t (.syscall regs) r).exited = w.exited :=
  if_neg h

/-- A system call has resumed a thread. -/
theorem Placed.resumed {w' : Watch} (h : Placed s w t) (hcur : v.cur_thread ≠ none)
    (hplaces : (v.cur_thread.toList ++ v.equiv_runq ++ w'.exited).Perm
      (t.cur_thread.toList ++ t.equiv_runq ++ w.exited))
    (htids : ∀ x, (v.threads x).tid = (s.threads x).tid) (hallocated : v.allocated = t.allocated)
    (hshared : v.shared_memory = t.shared_memory)
    (hdo : v.ctx_switch_status.do_instr_count = false)
    (hσ : ∀ σ, v.schedule = some σ → t.schedule = some σ ∧ w'.exited = w.exited ∧
      σ.n_ctx_switches ≤ v.ctx_switch_status.ctx_switch) : Placed s w' v where
  places := hplaces.trans h.places
  cur := hcur
  tids := htids
  allocated := hallocated.trans h.allocated
  shared := hshared.trans h.shared
  pending hdo' := by
    rw [hdo] at hdo'
    cases hdo'
  schedule σ hσv := by
    obtain ⟨hσt, hexited, hle⟩ := hσ σ hσv
    refine ⟨(h.schedule σ hσt).1, ?_, fun hlt => absurd hle (Nat.not_le.mpr hlt)⟩
    rw [hexited]
    exact (h.schedule σ hσt).2.1

/-- A system call that does not panic moves the running thread to the queue or out of it. -/
theorem Placed.trapped (h : Placed s w t) (hok : w.touched = false)
    (hr : Trapped { t with regs } r) : PlacedIn s (w.observe t (.syscall regs) r) r := by
  have hdo : t.ctx_switch_status.do_instr_count = false := by
    by_contra hdo
    have htouched := (h.pending (Bool.not_eq_false _ ▸ hdo)).1
    rw [hok] at htouched
    cases htouched
  have htids : ∀ th x, ((save th { t with regs }).threads x).tid = (s.threads x).tid :=
    fun th x => (save_tid th x { t with regs }).trans (h.tids x)
  cases hr with
  | @putc_back th hcur hsp hno hdone hq =>
    have hcur' : t.cur_thread = some th := hcur
    have hexit : regs 0 ≠ EQUIV_EXIT := ne_of_eq_of_ne hno (by decide)
    refine h.resumed h.cur ?_ (htids th) rfl rfl hdo fun σ hσ => ⟨hσ, observe_other_call hexit, hdone σ hσ⟩
    rw [observe_other_call hexit]
    rfl
  | @putc_next th next q hcur hsp hno hdone hq =>
    have hcur' : t.cur_thread = some th := hcur
    have hq' : t.equiv_runq = next :: q := hq
    have hexit : regs 0 ≠ EQUIV_EXIT := ne_of_eq_of_ne hno (by decide)
    refine h.resumed (Option.some_ne_none next) ?_ (htids th) rfl rfl hdo
      fun σ hσ => ⟨hσ, observe_other_call hexit, hdone σ hσ⟩
    rw [observe_other_call hexit, hcur', hq']
    change ((some next).toList ++ (q ++ [th]) ++ w.exited).Perm _
    refine List.perm_iff_count.mpr fun a => ?_
    simp only [Option.toList_some, List.count_append, List.count_cons, List.count_nil]
    omega
  | @yield th next q hcur hsp hno hq =>
    have hcur' : t.cur_thread = some th := hcur
    have hq' : t.equiv_runq ++ [th] = next :: q := hq
    have hexit : regs 0 ≠ EQUIV_EXIT := ne_of_eq_of_ne hno (by decide)
    refine h.resumed (Option.some_ne_none next) ?_ (htids th) rfl rfl hdo fun σ hσ => by cases hσ
    rw [observe_other_call hexit, hcur']
    change ((next :: q) ++ w.exited).Perm _
    rw [← hq']
    exact List.perm_append_comm.append_right _
  | @exit_last th hcur hsp hno hq =>
    have hcur' : t.cur_thread = some th := hcur
    have hq' : t.equiv_runq = [] := hq
    refine ⟨rfl, ?_⟩
    have hplaces := h.places
    rw [hcur', hq'] at hplaces
    rw [observe_exit hno, hcur']
    exact List.perm_append_comm.trans hplaces
  | @exit_next th next q hcur hsp hno hq =>
    have hcur' : t.cur_thread = some th := hcur
    have hq' : t.equiv_runq = next :: q := hq
    refine h.resumed (Option.some_ne_none next) ?_ (htids th) rfl rfl hdo fun σ hσ => by cases hσ
    rw [observe_exit hno, hcur', hq']
    change ((some next).toList ++ q ++ (w.exited ++ [th])).Perm _
    refine List.perm_iff_count.mpr fun a => ?_
    simp only [Option.toList_some, List.count_append, List.count_cons, List.count_nil]
    omega

/-- Every state that allowed traps lead to has its threads placed. -/
theorem Reaches.placed {ok : Watch → Trap → Prop} {s₀ : Checker (List ℕ)} (hs : Startable s)
    (hok : ∀ w e, ok w e → e.Allowed w) (h₀ : Placed s .start s₀) (h : Reaches ok s₀ w r) :
    PlacedIn s w r := by
  induction h with
  | start => exact h₀
  | @trap w t e r _ hallowed hrun ih =>
    have ht : Placed s w t := ih
    cases e with
    | touch touched pc =>
      obtain ⟨v, hv, hplaced⟩ := ht.handle_touch hs touched pc
      cases hv.symm.trans hrun
      exact hplaced
    | step regs =>
      obtain ⟨v, hv, hplaced⟩ := ht.handle_step hs regs
      cases hv.symm.trans hrun
      exact hplaced
    | syscall regs => exact ht.trapped (hok w _ hallowed) (equiv_syscall_handler_iff.mp hrun)

/-- The state in which the first thread is entered. -/
def started (th : ℕ) (q : List ℕ) (s : Checker (List ℕ)) : Checker (List ℕ) :=
  { s with equiv_runq := q, cur_thread := some th, mismatch := 0, regs := (s.threads th).regs }

theorem Startable.placed_started {q : List ℕ} (hs : Startable s) (hq : (th :: q).Perm s.equiv_runq)
    (hfirst : ∀ σ, s.schedule = some σ → σ.tids[0]? = some (s.threads th).tid) :
    Placed s .start (started th q s) where
  places := by simpa [started, Watch.start] using hq
  cur := Option.some_ne_none th
  tids _ := rfl
  allocated := rfl
  shared := rfl
  pending hdo := by
    rw [started, hs.status] at hdo
    cases hdo
  schedule σ hσ := by
    refine ⟨hσ, rfl, fun _ x hx => ?_⟩
    cases hx
    rw [started, hs.status]
    exact hfirst σ hσ

/-- A run starts with one thread taken out of the queue, the first of a schedule that is set. -/
theorem Startable.start (hs : Startable s) : ∃ th q, equiv_run_start s = .ok (started th q s) ∧
    Placed s .start (started th q s) ∧
      ∀ σ, s.schedule = some σ → σ.tids[0]? = some (s.threads th).tid := by
  cases hσ : s.schedule with
  | none =>
    obtain ⟨th, q, hq⟩ : ∃ th q, s.equiv_runq = th :: q := by
      cases hq : s.equiv_runq with
      | nil => exact absurd hq hs.nonempty
      | cons th q => exact ⟨th, q, rfl⟩
    have hfirst : ∀ σ, s.schedule = some σ → σ.tids[0]? = some (s.threads th).tid := by
      rw [hσ]
      exact fun σ hσ => by cases hσ
    refine ⟨th, q, ?_, hs.placed_started (hq ▸ List.Perm.refl _) hfirst, fun σ hσ => by cases hσ⟩
    rw [equiv_run_start, hσ]
    simp [hq, started, hσ]
  | some σ =>
    have hfits := hs.fits σ hσ
    have hlen : 0 < σ.tids.length := by
      rw [hfits.tids_length]
      exact Nat.succ_pos _
    obtain ⟨th, hth, htid⟩ := hfits.drawn _ (List.getElem_mem hlen)
    obtain ⟨l, r, hq⟩ := List.append_of_mem hth
    have hget : σ.tids[0]? = some (s.threads th).tid := by
      rw [List.getElem?_eq_getElem hlen, ← htid]
    have hfirst : ∀ σ, s.schedule = some σ → σ.tids[0]? = some (s.threads th).tid := by
      intro σ' hσ'
      cases hσ.symm.trans hσ'
      exact hget
    have hperm : (th :: (r ++ l)).Perm s.equiv_runq := by
      rw [hq]
      exact (List.Perm.cons th List.perm_append_comm).trans List.perm_middle.symm
    refine ⟨th, r ++ l, ?_, hs.placed_started hperm hfirst, fun σ' hσ' => hfirst σ' (hσ.trans hσ')⟩
    rw [equiv_run_start, hσ]
    refine bind_ok_iff.mpr ⟨_, readAt_ok_iff.mpr hget, ?_⟩
    refine bind_ok_iff.mpr ⟨_, retrieve_tid_from_queue_eq hq hs.tids hs.length_le, ?_⟩
    simp [started, hσ]

/-- A system call of a running thread fails by a panic only. -/
theorem equiv_syscall_handler_panics {f : Fault} (hcur : t.cur_thread ≠ none)
    (h : equiv_syscall_handler t = .error f) : ∃ msg, f = .panic msg := by
  obtain ⟨th, hcur⟩ := Option.ne_none_iff_exists'.mp hcur
  unfold equiv_syscall_handler at h
  rw [cur_ok_iff.mpr hcur] at h
  simp only [bind, Except.bind] at h
  cases hsp : check_sp ((t.setThread th { t.threads th with regs := t.regs }).threads th) with
  | error f' =>
    rw [hsp] at h
    cases h
    unfold check_sp at hsp
    split at hsp
    · exact ⟨_, (Except.error.inj hsp).symm⟩
    · split at hsp
      · exact ⟨_, (Except.error.inj hsp).symm⟩
      · cases hsp
  | ok u =>
    rw [hsp] at h
    simp only at h
    split at h
    · split at h
      · rename_i hrun
        cases h
        unfold equiv_schedule at hrun
        split at hrun
        · exact ⟨_, (Except.error.inj hrun).symm⟩
        · split at hrun <;> cases hrun
      · cases h
    · split at h
      · split at h
        · rename_i hpop
          obtain ⟨hhead, -⟩ := Prod.mk.inj hpop
          simp at hhead
        · cases h
      · split at h
        · split at h <;> cases h
        · exact ⟨_, (Except.error.inj h).symm⟩

/-- No trap fails but a system call that panics. -/
theorem Placed.error_panics {e : Trap} {f : Fault} (hs : Startable s) (h : Placed s w t)
    (hf : t.handle e = .error f) : ∃ regs msg, e = .syscall regs ∧ f = .panic msg := by
  cases e with
  | touch touched pc =>
    obtain ⟨v, hv, -⟩ := h.handle_touch hs touched pc
    cases hv.symm.trans hf
  | step regs =>
    obtain ⟨v, hv, -⟩ := h.handle_step hs regs
    cases hv.symm.trans hf
  | syscall regs =>
    obtain ⟨msg, hmsg⟩ := equiv_syscall_handler_panics (t := { t with regs }) h.cur hf
    exact ⟨regs, msg, rfl, hmsg⟩

/-- No thread is lost or duplicated: at any time the running thread, the queue and the
threads that have exited make up the queue at the start. Control returns when all have
exited, to an empty queue; and no trap fails but a system call that panics. -/
theorem no_thread_lost (s : Checker (List ℕ)) (hs : Startable s) :
    ∃ s₀, equiv_run_start s = .ok s₀ ∧ ∀ w r, Reaches (fun w e => e.Allowed w) s₀ w r →
      (r.running_thread ++ r.state.equiv_runq ++ w.exited).Perm s.equiv_runq ∧
      (r.running_thread ++ r.state.equiv_runq ++ w.exited).Nodup ∧
      ((∃ t, r = .finished t) ↔ ∀ th ∈ s.equiv_runq, th ∈ w.exited) ∧
      (∀ t, r = .finished t → Interleaver.reset_ntids t = .ok { t with ntids := 1 }) ∧
      ∀ t, r = .running t → ∀ e : Trap, e.Allowed w →
        ∀ f, t.handle e = .error f → ∃ regs msg, e = .syscall regs ∧ f = .panic msg := by
  obtain ⟨th, q, hstart, h₀, -⟩ := hs.start
  have hnodup : s.equiv_runq.Nodup := List.Nodup.of_map _ hs.tids
  refine ⟨_, hstart, fun w r hr => ?_⟩
  have hplaced := hr.placed hs (fun _ _ h => h) h₀
  cases r with
  | running t =>
    have ht : Placed s w t := hplaced
    obtain ⟨x, hx⟩ := Option.ne_none_iff_exists'.mp ht.cur
    have hunique := ht.places.nodup_iff.mpr hnodup
    refine ⟨ht.places, hunique, ⟨fun ⟨_, hend⟩ => (nomatch hend), fun hall => ?_⟩,
      fun _ hend => (nomatch hend), ?_⟩
    · -- the running thread has not exited
      have hmem : x ∈ t.cur_thread.toList := by simp [hx]
      have hxs : x ∈ s.equiv_runq := ht.places.mem_iff.mp (by simp [hx])
      exact absurd rfl ((List.nodup_append.mp hunique).2.2 x (List.mem_append_left _ hmem) x (hall x hxs))
    · intro t' ht' e _ f hf
      cases ht'
      exact ht.error_panics hs hf
  | finished t =>
    obtain ⟨hq, hexited⟩ := hplaced
    have hplaces : (Progress.running_thread (.finished t) ++ (Progress.finished t).state.equiv_runq ++
        w.exited).Perm s.equiv_runq := by
      simpa [Progress.running_thread, hq] using hexited
    refine ⟨hplaces, hplaces.nodup_iff.mpr hnodup, ⟨fun _ th hth => hexited.mem_iff.mpr hth,
      fun _ => ⟨t, rfl⟩⟩, ?_, fun _ hrun => nomatch hrun⟩
    intro t' ht'
    cases ht'
    simp [Interleaver.reset_ntids, hq]

end Steps

/-- The traps are taken one after another, as long as each of them meets the condition. -/
def replay (ok : Watch → Trap → Prop) [∀ w e, Decidable (ok w e)] :
    List Trap → Watch → Checker (List ℕ) → Option (Watch × Progress (Checker (List ℕ)))
  | [], w, s => some (w, .running s)
  | e :: es, w, s =>
    if ok w e then
      match s.handle e with
      | .ok (.running t) => replay ok es (w.observe s e (.running t)) t
      | .ok (.finished t) => some (w.observe s e (.finished t), .finished t)
      | .error _ => none
    else none

theorem Reaches.replay {ok : Watch → Trap → Prop} [∀ w e, Decidable (ok w e)] {s₀ s : Checker (List ℕ)}
    {es : List Trap} {w w' : Watch} {r : Progress (Checker (List ℕ))}
    (hs : Reaches ok s₀ w (.running s)) (hrun : Checker.replay ok es w s = some (w', r)) :
    Reaches ok s₀ w' r := by
  induction es generalizing w s with
  | nil =>
    cases hrun
    exact hs
  | cons e es ih =>
    rw [Checker.replay] at hrun
    split at hrun
    · rename_i hok
      split at hrun
      · rename_i t hstep
        exact ih (hs.trap hok hstep) hrun
      · rename_i t hstep
        cases hrun
        exact hs.trap hok hstep
      · cases hrun
    · cases hrun

instance (w : Watch) : (e : Trap) → Decidable (e.Allowed w)
  | .touch _ _ => inferInstanceAs (Decidable True)
  | .step _ => inferInstanceAs (Decidable True)
  | .syscall _ => inferInstanceAs (Decidable (w.touched = false))

/-- Two queued threads, numbered 1 and 2, and a switch to thread 2 at the first shared touch. -/
def twoThreads : Checker (List ℕ) where
  equiv_runq := [1, 0]
  threads k :=
    { regs := fun _ => 0, tid := k + 1, fn := 0x9000, args := 0, stack_start := 0, stack_end := stack_size }
  allocated := 2
  ntids := 3
  cur_thread := none
  ctx_switch_status := ⟨0, 0, false, false⟩
  schedule := some ⟨[1, 2], [1], 1, 2, true⟩
  shared_memory := some {512#32}
  pcs := []
  rw_tracker_enabled := true
  armed := false
  current_tracker := ⟨none, none⟩
  touch_handler := true
  mismatch := 0
  regs _ := 0
  mem _ := 0
  uart := []
  nullReads := 0

def sysno (n : Word) : Trap := .syscall fun i => if i = 0 then n else 0

theorem twoThreads_startable : Startable twoThreads where
  nonempty := by decide
  tids := by decide
  allocated := by decide
  status := rfl
  fits σ hσ := by
    cases hσ
    exact ⟨rfl, rfl, by decide, by decide⟩
  shared _ := by decide

/-- Thread 1 is preempted after a shared touch, thread 2 exits, and then thread 1. -/
theorem no_thread_lost_two : ∃ s₀ w t, equiv_run_start twoThreads = .ok s₀ ∧
    Reaches (fun w e => e.Allowed w) s₀ w (.finished t) ∧ w.exited = [1, 0] ∧
    Interleaver.reset_ntids t = .ok { t with ntids := 1 } := by
  obtain ⟨s₀, hstart, hall⟩ := no_thread_lost twoThreads twoThreads_startable
  have hrun : (equiv_run_start twoThreads).toOption.bind (fun s₀ =>
      (replay (fun w e => e.Allowed w) [.touch {512#32} 0x9000, .step fun _ => 0,
        sysno EQUIV_EXIT, .step fun _ => 0, sysno EQUIV_EXIT] .start s₀).map fun x =>
          (x.1.exited, match x.2 with | .running _ => false | .finished _ => true)) =
      some ([1, 0], true) := by
    decide +kernel
  rw [hstart] at hrun
  obtain ⟨⟨w, r⟩, hreplay, heq⟩ := Option.map_eq_some_iff.mp hrun
  obtain ⟨hexited, hend⟩ := Prod.mk.inj heq
  have hreaches := Reaches.start.replay hreplay
  cases r with
  | running t => cases hend
  | finished t =>
    obtain ⟨-, -, -, hreset, -⟩ := hall w _ hreaches
    exact ⟨s₀, w, t, hstart, hreaches, hexited, hreset t rfl⟩

end Checker

end EquivChecker
