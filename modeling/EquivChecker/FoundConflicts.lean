import EquivChecker.InterleavingVerdict
import EquivChecker.SharedMemory
import EquivChecker.StaleTracker

/-!
# The conflicts that are found

The tracker sees each function run once, alone. When the bytes that a function accesses do not depend
on what it reads, these are the bytes that it accesses in every interleaving, and the shared memory
that is found has all conflicts, but for bytes that are only written.
-/

namespace EquivChecker.RunInterleaving

open Interleaving Checker SwitchPoints SharedMemory SerialReference Verdict SetTrie OwnedHeap

section Solo
variable {p : Platform}

/-- The data aborts of a function that runs alone under the tracker. -/
inductive Solo (p : Platform) : Regs → Mem → List DataAbort → Prop where
  | exit {regs mem regs'} (hfetch : p.fetch regs mem = .swi regs') : Solo p regs mem []
  | quiet {regs mem w regs' mem' aborts} (hfetch : p.fetch regs mem = .exec ∅ w regs' mem')
      (h : Solo p regs' mem' aborts) : Solo p regs mem aborts
  | abort {regs mem touched w regs' mem' aborts bytes} (hfetch : p.fetch regs mem = .exec touched w regs' mem')
      (hne : touched ≠ ∅) (hbytes : ∀ a, a ∈ bytes ↔ a ∈ touched) (h : Solo p regs' mem' aborts) :
      Solo p regs mem (⟨bytes, w⟩ :: aborts)

/-- From registers that `R` relates, the same bytes of `C` are accessed, whatever is in memory. -/
structure Oblivious (p : Platform) (C : Set Addr) (R : Regs → Regs → Prop) : Prop where
  exec : ∀ {regs regs' mem touched w regs₁ mem₁}, R regs regs' →
    p.fetch regs mem = .exec touched w regs₁ mem₁ → ∀ mem', ∃ touched' regs₁' mem₁',
      p.fetch regs' mem' = .exec touched' w regs₁' mem₁' ∧ (∀ a ∈ C, a ∈ touched' → a ∈ touched) ∧ R regs₁ regs₁'
  swi : ∀ {regs regs' mem regs₁}, R regs regs' → p.fetch regs mem = .swi regs₁ →
    ∀ mem', ∃ regs₁', p.fetch regs' mem' = .swi regs₁'

/-- Instructions that the tracker takes for loads write nothing. -/
def LoadsOnlyRead (fp : Footprints p) : Prop :=
  ∀ regs mem touched regs' mem', p.fetch regs mem = .exec touched false regs' mem' → fp.writes regs mem = ∅

variable {C : Set Addr} {R : Regs → Regs → Prop} {aborts : List DataAbort} {regs regs' : Regs} {mem mem' : Mem}

/-- What the thread still accesses of `C` is among the bytes of the data aborts. -/
def Ahead (p : Platform) (R : Regs → Regs → Prop) (aborts : List DataAbort) (regs : Regs) : Prop :=
  ∃ regs' mem rest, R regs' regs ∧ Solo p regs' mem rest ∧ ∀ w, accessed w rest ⊆ accessed w aborts

theorem accessed_cons (w : Bool) (e : DataAbort) (aborts : List DataAbort) :
    accessed w aborts ⊆ accessed w (e :: aborts) := by
  rintro a ⟨e', he', hw, ha⟩
  exact ⟨e', List.mem_cons_of_mem e he', hw, ha⟩

/-- One instruction of a thread in an interleaving, and of the same function alone. -/
theorem Ahead.exec (hobl : Oblivious p C R) (h : Ahead p R aborts regs) {touched : Finset Addr} {w : Bool}
    {regs₁ : Regs} {mem₁ : Mem} (hfetch : p.fetch regs mem = .exec touched w regs₁ mem₁) :
    (∀ a ∈ C, a ∈ touched → a ∈ accessed w aborts) ∧ Ahead p R aborts regs₁ := by
  obtain ⟨regs', mem', rest, hR, hsolo, hsub⟩ := h
  cases hsolo with
  | exit halone =>
    obtain ⟨_, htrap⟩ := hobl.swi hR halone mem
    cases htrap.symm.trans hfetch
  | quiet halone hsolo =>
    obtain ⟨touched', regs₁', mem₁', hfetch', htouched, hR'⟩ := hobl.exec hR halone mem
    cases hfetch'.symm.trans hfetch
    exact ⟨fun a ha hin => absurd (htouched a ha hin) (Finset.notMem_empty a), _, _, _, hR', hsolo, hsub⟩
  | @abort _ _ alone _ _ _ rest bytes halone _ hbytes hsolo =>
    obtain ⟨touched', regs₁', mem₁', hfetch', htouched, hR'⟩ := hobl.exec hR halone mem
    cases hfetch'.symm.trans hfetch
    refine ⟨fun a ha hin => hsub w ?_, _, _, _, hR', hsolo, fun w' => (accessed_cons w' _ rest).trans (hsub w')⟩
    exact ⟨⟨bytes, w⟩, List.mem_cons_self, rfl, (hbytes a).mpr (htouched a ha hin)⟩

end Solo

section Events
variable {p : Platform} {C : Set Addr} {R : Regs → Regs → Prop} {fp : Footprints p}
  {aborts : ℕ → List DataAbort} {s : Config ℕ (Option Regs) Addr (BitVec 8)} {σ : List ℕ} {i : ℕ}

/-- Every thread has its accesses ahead of it. -/
def AllAhead (p : Platform) (R : Regs → Regs → Prop) (aborts : ℕ → List DataAbort)
    (s : Config ℕ (Option Regs) Addr (BitVec 8)) : Prop :=
  ∀ x regs, s.regs x = some regs → Ahead p R (aborts x) regs

/-- What the event accesses of `C` was found. -/
structure Seen (C : Set Addr) (aborts : ℕ → List DataAbort) (e : Event ℕ Addr) : Prop where
  writes : ∀ a ∈ C, a ∈ e.writes → a ∈ accessed true (aborts e.thread)
  touched : ∀ a ∈ C, a ∈ e.touched → a ∈ accessed false (aborts e.thread) ∨ a ∈ accessed true (aborts e.thread)

theorem AllAhead.step (hobl : Oblivious p C R) (hloads : LoadsOnlyRead fp) (h : AllAhead p R aborts s) (i : ℕ) :
    Seen C aborts (event fp.machine s i) ∧ AllAhead p R aborts (Interleaving.step fp.machine s i) := by
  have hother : ∀ x, x ≠ i → ∀ regs, (Interleaving.step fp.machine s i).regs x = some regs →
      Ahead p R (aborts x) regs := by
    intro x hx regs hregs
    rw [step_regs_of_ne _ s hx] at hregs
    exact h x regs hregs
  have hself : (Interleaving.step fp.machine s i).regs i = (execOne p (s.regs i) s.mem).1 :=
    step_regs_self ..
  cases hregs : s.regs i with
  | none =>
    have hevent : event fp.machine s i = ⟨i, ∅, ∅, true⟩ := by
      rw [event, hregs]
      rfl
    rw [hevent]
    refine ⟨⟨fun a _ ha => ha.elim, fun a _ ha => ha.elim (fun h => h.elim) fun h => h.elim⟩, fun x regs hx => ?_⟩
    by_cases hxi : x = i
    · subst hxi
      rw [hself, hregs] at hx
      cases hx
    · exact hother x hxi regs hx
  | some regs =>
    have hi := h i regs hregs
    have hreads : (event fp.machine s i).reads = fp.reads regs s.mem := by
      rw [event, hregs]
      rfl
    have hwrites : (event fp.machine s i).writes = fp.writes regs s.mem := by
      rw [event, hregs]
      rfl
    cases hfetch : p.fetch regs s.mem with
    | exec touched w regs₁ mem₁ =>
      obtain ⟨hin, hahead⟩ := hi.exec hobl hfetch
      have htouched : (event fp.machine s i).touched = (touched : Set Addr) := by
        rw [Event.touched, hreads, hwrites]
        exact (fp.touched hfetch).symm
      refine ⟨⟨fun a ha hwrite => ?_, fun a ha htouch => ?_⟩, fun x regs' hx => ?_⟩
      · cases w with
        | false =>
          rw [hwrites, hloads _ _ _ _ _ hfetch] at hwrite
          exact hwrite.elim
        | true =>
          refine hin a ha ?_
          rw [← Finset.mem_coe, ← htouched]
          exact .inr hwrite
      · rw [htouched] at htouch
        have hacc := hin a ha (Finset.mem_coe.mp htouch)
        cases w with
        | false => exact .inl hacc
        | true => exact .inr hacc
      · by_cases hxi : x = i
        · subst hxi
          rw [hself, hregs] at hx
          simp only [execOne, hfetch, Option.some.injEq] at hx
          exact hx ▸ hahead
        · exact hother x hxi regs' hx
    | swi regs₁ =>
      obtain ⟨-, hr, hw⟩ := fp.trap hfetch
      refine ⟨⟨fun a _ ha => ?_, fun a _ ha => ?_⟩, fun x regs' hx => ?_⟩
      · rw [hwrites, hw] at ha
        exact ha.elim
      · rw [Event.touched, hreads, hwrites, hr, hw] at ha
        exact ha.elim (fun h => h.elim) fun h => h.elim
      · by_cases hxi : x = i
        · subst hxi
          rw [hself, hregs] at hx
          simp only [execOne, hfetch, reduceCtorEq] at hx
        · exact hother x hxi regs' hx

theorem AllAhead.seen (hobl : Oblivious p C R) (hloads : LoadsOnlyRead fp) (h : AllAhead p R aborts s) :
    ∀ e ∈ trace fp.machine s σ, Seen C aborts e := by
  induction σ generalizing s with
  | nil => exact fun e he => absurd he List.not_mem_nil
  | cons i σ ih =>
    obtain ⟨hseen, hnext⟩ := h.step hobl hloads i
    intro e he
    rcases List.mem_cons.mp he with rfl | he
    · exact hseen
    · exact ih hnext e he

end Events

section Tracker
variable {p : Platform} {s t v x : Checker (List ℕ)} {i : ℕ} {touched : Finset Addr} {w : Bool} {regs : Regs}
  {mem : Mem} {aborts : List DataAbort} {read write : Finset Addr}

/-- The thread `i` runs alone under an armed tracker. -/
structure Tracked (v : Checker (List ℕ)) (i : ℕ) : Prop where
  cur : v.cur_thread = some i
  queue : v.equiv_runq = []
  schedule : v.schedule = none
  unmarked : v.ctx_switch_status.do_instr_count = false
  enabled : v.rw_tracker_enabled = true
  armed : v.armed = true
  mismatch : v.mismatch = v.regs REGS_PC

/-- The bytes that loads and stores add to the sets of the tracker. -/
def Collects (aborts : List DataAbort) (before after : Tracker) : Prop :=
  ∀ read write, before = ⟨some read, some write⟩ → ∃ read' write', after = ⟨some read', some write'⟩ ∧
    (∀ a, a ∈ read' ↔ a ∈ read ∨ a ∈ accessed false aborts) ∧
    ∀ a, a ∈ write' ↔ a ∈ write ∨ a ∈ accessed true aborts

/-- A data abort, if there is one, adds its bytes to one of the two sets. -/
theorem Tracked.access (h : Tracked v i) (ht : Checker.access touched w v = .ok t) :
    t = { v with
      current_tracker := if touched = ∅ then v.current_tracker else v.current_tracker.record touched w
      armed := if touched = ∅ then v.armed else false } := by
  have hhandler : memory_touch_handler touched v = .ok v := by
    unfold memory_touch_handler
    rw [ctx_switch_handler_eq_self (fun σ hσ => by cases hσ.symm.trans h.schedule), ite_self]
  unfold Checker.access at ht
  by_cases htouched : touched = ∅
  · rw [if_neg (fun hne => hne.2 htouched)] at ht
    cases ht
    simp only [if_pos htouched]
  · rw [if_pos ⟨h.armed, htouched⟩] at ht
    obtain ⟨u, hu, ht⟩ := bind_ok_iff.mp ht
    cases hhandler.symm.trans hu
    cases ht
    simp only [if_neg htouched]
    rfl

/-- The prefetch abort behind the instruction arms the tracker again. -/
theorem Tracked.next (hmoves : Moves p) (h : Tracked v i)
    (hfetch : p.fetch v.regs v.mem = .exec touched w regs mem) (ht : Checker.access touched w v = .ok t)
    (hs : prefetch { t with regs, mem } = .ok s) :
    Tracked s i ∧ s.regs = regs ∧ s.mem = mem ∧
      s.current_tracker = if touched = ∅ then v.current_tracker else v.current_tracker.record touched w := by
  obtain rfl := h.access ht
  have hpc : regs REGS_PC ≠ v.mismatch := by
    rw [h.mismatch]
    exact hmoves _ _ _ _ _ _ hfetch
  rw [prefetch, if_neg hpc] at hs
  obtain ⟨u, hu, hs⟩ := bind_ok_iff.mp hs
  cases hs
  cases equiv_hash_handler_iff.mp hu with
  | @unmarked th hth hdo =>
    rw [saved_eq]
    refine ⟨⟨h.cur, h.queue, h.schedule, h.unmarked, h.enabled, ?_, rfl⟩, rfl, rfl, rfl⟩
    change (v.rw_tracker_enabled || _) = true
    rw [h.enabled, Bool.true_or]
  | counted _ hmark => cases hmark.symm.trans h.unmarked
  | switched _ hmark => cases hmark.symm.trans h.unmarked

theorem Collects.record {tracker after : Tracker} {bytes : List Addr} (hbytes : ∀ a, a ∈ bytes ↔ a ∈ touched)
    (h : Collects aborts (tracker.record touched w) after) : Collects (⟨bytes, w⟩ :: aborts) tracker after := by
  rintro read write rfl
  cases w with
  | false =>
    obtain ⟨read', write', hafter, hread, hwrite⟩ := h (read ∪ touched) write rfl
    refine ⟨read', write', hafter, fun a => (hread a).trans ?_, fun a => (hwrite a).trans ?_⟩
    · simp [accessed, hbytes, or_assoc]
    · simp [accessed]
  | true =>
    obtain ⟨read', write', hafter, hread, hwrite⟩ := h read (write ∪ touched) rfl
    refine ⟨read', write', hafter, fun a => (hread a).trans ?_, fun a => (hwrite a).trans ?_⟩
    · simp [accessed]
    · simp [accessed, hbytes, or_assoc]

/-- A run that ends has collected the bytes of its data aborts. -/
theorem Tracked.steps (hmoves : Moves p)
    (hexits : ∀ regs mem regs', p.fetch regs mem = .swi regs' → regs' 0 = EQUIV_EXIT)
    {fuel : ℕ} (h : Tracked v i) (hs : prefetch s = .ok v) (hrun : Checker.steps p fuel s = .ok (.finished t)) :
    ∃ aborts, Solo p v.regs v.mem aborts ∧ Collects aborts v.current_tracker t.current_tracker := by
  induction fuel generalizing s v with
  | zero => cases hrun
  | succ fuel ih =>
    obtain ⟨r, hstep, hrest⟩ := bind_ok_iff.mp hrun
    obtain ⟨v', hv', hstep⟩ := bind_ok_iff.mp hstep
    cases hs.symm.trans hv'
    cases hfetch : p.fetch v.regs v.mem with
    | exec touched w regs mem =>
      rw [hfetch] at hstep
      obtain ⟨u, hu, hstep⟩ := bind_ok_iff.mp hstep
      cases hstep
      have hfuel : ∃ s', prefetch { u with regs, mem } = .ok s' := by
        cases fuel with
        | zero => cases hrest
        | succ fuel =>
          obtain ⟨r, hr, -⟩ := bind_ok_iff.mp hrest
          obtain ⟨s', hs', -⟩ := bind_ok_iff.mp hr
          exact ⟨s', hs'⟩
      obtain ⟨s', hs'⟩ := hfuel
      obtain ⟨hnext, hregs, hmem, htracker⟩ := h.next hmoves hfetch hu hs'
      obtain ⟨aborts, hsolo, hcollects⟩ := ih hnext hs' hrest
      rw [hregs, hmem] at hsolo
      rw [htracker] at hcollects
      by_cases htouched : touched = ∅
      · subst htouched
        exact ⟨aborts, .quiet hfetch hsolo, hcollects⟩
      · rw [if_neg htouched] at hcollects
        have hbytes : ∀ a, a ∈ touched.toList ↔ a ∈ touched := fun a => Finset.mem_toList
        exact ⟨_, .abort hfetch htouched hbytes hsolo, hcollects.record hbytes⟩
    | swi regs =>
      rw [hfetch] at hstep
      have hexit := hexits _ _ _ hfetch
      refine ⟨[], .exit hfetch, fun read write hbefore =>
        ⟨read, write, ?_, by simp [accessed], by simp [accessed]⟩⟩
      cases equiv_syscall_handler_iff.mp hstep with
      | putc_back _ _ hno => exact absurd (hno.symm.trans hexit) (by decide)
      | putc_next _ _ hno => exact absurd (hno.symm.trans hexit) (by decide)
      | yield _ _ hno => exact absurd (hno.symm.trans hexit) (by decide)
      | exit_last =>
        cases hrest
        exact hbefore
      | exit_next _ _ _ hq => cases hq.symm.trans h.queue

/-- `find_rw_set` adds to the two sets what the function loads and stores when it runs alone. -/
theorem find_rw_set_collects (hmoves : Moves p)
    (hexits : ∀ regs mem regs', p.fetch regs mem = .swi regs' → regs' 0 = EQUIV_EXIT) {fuel : ℕ} {exe : Word}
    (hexe : exe ≠ 0) (hq : s.equiv_runq = [])
    (hrun : Checker.find_rw_set p fuel exe read write s = .ok (.finished t)) : ∃ th aborts,
      th.fn = exe ∧ th.args = 0 ∧ Solo p (equiv_regs_init p th) s.mem aborts ∧
      Collects aborts ⟨some read, some write⟩ t.current_tracker := by
  obtain ⟨⟨i, u⟩, hfork, hrun⟩ := bind_ok_iff.mp hrun
  obtain ⟨r, hr, hrun⟩ := bind_ok_iff.mp hrun
  obtain ⟨x, hstart, hsteps⟩ := bind_ok_iff.mp hr
  obtain ⟨-, -, hfork⟩ := bind_ok_iff.mp hfork
  obtain ⟨rfl, rfl⟩ := Prod.mk.inj (Except.ok.inj hfork)
  have hqueue : RunQueue.push s.allocated s.equiv_runq = [s.allocated] := by
    rw [hq]
    rfl
  rw [equiv_run_start_queue rfl hqueue] at hstart
  have hx := Except.ok.inj hstart
  have hcur : x.cur_thread = some s.allocated := by rw [← hx]
  have hrunq : x.equiv_runq = [] := by rw [← hx]
  have hschedule : x.schedule = none := by
    rw [← hx]
    rfl
  have hunmarked : x.ctx_switch_status.do_instr_count = false := by
    rw [← hx]
    rfl
  have henabled : x.rw_tracker_enabled = true := by
    rw [← hx]
    rfl
  have htracker : x.current_tracker = ⟨some read, some write⟩ := by
    rw [← hx]
    rfl
  have hmem : x.mem = s.mem := by
    rw [← hx]
    rfl
  obtain ⟨th, hfn, hargs, hregs⟩ : ∃ th : EqTh, th.fn = exe ∧ th.args = 0 ∧ x.regs = equiv_regs_init p th := by
    rw [← hx]
    refine ⟨{ regs := fun _ => 0, tid := s.ntids, fn := exe, args := 0
              stack_start := p.kmalloc_aligned s.allocated
              stack_end := p.kmalloc_aligned s.allocated + stack_size }, rfl, rfl, ?_⟩
    have hself : ∀ (threads : ℕ → EqTh) (a : ℕ) (th : EqTh), (Function.update threads a th a).regs = th.regs :=
      fun threads a th => by rw [Function.update_self]
    exact hself _ _ _
  have hpc : x.regs REGS_PC ≠ x.mismatch := by
    have hzero : x.mismatch = 0 := by rw [← hx]
    rw [hzero, hregs]
    change th.fn ≠ 0
    rw [hfn]
    exact hexe
  cases r with
  | running w => cases hrun
  | finished w =>
    obtain ⟨w', hw', hrun⟩ := bind_ok_iff.mp hrun
    cases hrun
    have hafter : t.current_tracker = w.current_tracker := by
      unfold Interleaver.reset_ntids at hw'
      split at hw'
      · cases hw'
        rfl
      · cases hw'
    have hfuel : ∃ v, prefetch x = .ok v := by
      cases fuel with
      | zero => cases hsteps
      | succ fuel =>
        obtain ⟨r, hr, -⟩ := bind_ok_iff.mp hsteps
        obtain ⟨v, hv, -⟩ := bind_ok_iff.mp hr
        exact ⟨v, hv⟩
    obtain ⟨v, hv⟩ := hfuel
    have hv' := hv
    rw [prefetch, if_neg hpc] at hv'
    obtain ⟨y, hy, hv'⟩ := bind_ok_iff.mp hv'
    cases hv'
    cases equiv_hash_handler_iff.mp hy with
    | @unmarked i hth _ =>
      have htracked : Tracked { saved i x with mismatch := (saved i x).regs REGS_PC } i := by
        rw [saved_eq]
        refine ⟨hth, hrunq, hschedule, hunmarked, henabled, ?_, rfl⟩
        change (x.rw_tracker_enabled || _) = true
        rw [henabled, Bool.true_or]
      obtain ⟨aborts, hsolo, hcollects⟩ := htracked.steps hmoves hexits hv hsteps
      have hsame : (saved i x).regs = x.regs ∧ (saved i x).mem = x.mem ∧
          (saved i x).current_tracker = x.current_tracker := by
        rw [saved_eq]
        exact ⟨rfl, rfl, rfl⟩
      obtain ⟨hregs', hmem', htracker'⟩ := hsame
      refine ⟨th, aborts, hfn, hargs, ?_, ?_⟩
      · have hsolo' : Solo p (saved i x).regs (saved i x).mem aborts := hsolo
        rwa [hregs', hmem', hregs, hmem] at hsolo'
      · rw [hafter]
        have hcollects' : Collects aborts (saved i x).current_tracker w.current_tracker := hcollects
        rwa [htracker', htracker] at hcollects'
    | counted _ hmark => cases hmark.symm.trans hunmarked
    | switched _ hmark => cases hmark.symm.trans hunmarked

end Tracker

section Found
variable {p : Platform} {C : Set Addr} {R : Regs → Regs → Prop} {u : Setup} {b : Checker (List ℕ)}
  {runs : List (List DataAbort)} {executables : List FunctionExec} {e f : Event ℕ Addr} {a : Addr}

end Found

section Check
variable {u : Setup} {b : Checker (List ℕ)} {D C scratch : Set Addr} {R : Regs → Regs → Prop}
  {call : Word → Word → Mem → Mem} {members : List Addr} {executables : List FunctionExec}
  {runs : List (List DataAbort)} {s : SetHeap} {p : Ptr} {G : Set Ptr}

end Check

section Racers

/-- `find_rw_set` of one of the functions. -/
theorem find_rw_set_collects_racers : ∃ t th aborts,
    Checker.find_rw_set racing 12 0x9000 ∅ ∅ racersStart = .ok (.finished t) ∧ th.fn = 0x9000 ∧
    Solo racing (equiv_regs_init racing th) racersStart.mem aborts ∧
    Collects aborts ⟨some ∅, some ∅⟩ t.current_tracker := by
  have hexits : ∀ regs mem regs', racing.fetch regs mem = .swi regs' → regs' 0 = EQUIV_EXIT :=
    fun _ _ _ hfetch => (racingFootprints.trap hfetch).1
  obtain ⟨t, hrun, -, -⟩ : ∃ t, Checker.find_rw_set racing 12 0x9000 ∅ ∅ racersStart = .ok (.finished t) ∧
      t.ctx_switch_status.ctx_switch = 0 ∧ t.mem 4096 = 1 := exists_of_endsAs (by decide +kernel)
  obtain ⟨th, aborts, hfn, -, hsolo, hcollects⟩ :=
    find_rw_set_collects racing_moves hexits (by decide) rfl hrun
  exact ⟨t, th, aborts, hrun, hfn, hsolo, hcollects⟩

end Racers

end EquivChecker.RunInterleaving
