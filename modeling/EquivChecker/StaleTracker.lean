import EquivChecker.Exploration

/-!
# The tracker after its run

`find_rw_set` leaves its two sets in the global tracker. Disabling stops the data aborts, but
`run_interleavings` enables them again, and whatever its threads access is added to the sets
of the last `find_rw_set`.
-/

namespace EquivChecker

/-- The statics of `equiv-rw-set.c`, the domain access bits, and what every set holds. -/
structure RwTracker where
  rw_tracker_enabled : Bool
  armed : Bool
  read : Option ℕ
  write : Option ℕ
  sets : ℕ → Finset Addr

namespace RwTracker

def rw_tracker_arm (x : RwTracker) : RwTracker :=
  if x.rw_tracker_enabled then { x with armed := true } else x

def rw_tracker_disarm (x : RwTracker) : RwTracker := { x with armed := false }

def rw_tracker_enable (x : RwTracker) : RwTracker := { x with rw_tracker_enabled := true }

def rw_tracker_disable (x : RwTracker) : RwTracker :=
  { rw_tracker_disarm x with rw_tracker_enabled := false }

def set_union_inplace (p : ℕ) (touched : Finset Addr) (x : RwTracker) : RwTracker :=
  { x with sets := Function.update x.sets p (x.sets p ∪ touched) }

/-- The touch handler works on sets of its own. -/
def rw_tracker_data_abort_handler (touched : Finset Addr) (w : Bool) (x : RwTracker) : RwTracker :=
  rw_tracker_disarm <| match x.write, w, x.read with
    | some write, true, _ => set_union_inplace write touched x
    | _, false, some read => set_union_inplace read touched x
    | _, _, _ => x

/-- What a thread does: the prefetch abort before an instruction, and an access to kernel memory. -/
inductive Trap where
  | step
  | access (touched : Finset Addr) (w : Bool)

inductive Event where
  /-- `find_rw_set` up to its run. -/
  | find_rw_set (read write : ℕ)
  /-- An iteration of `run_interleavings` up to its run. -/
  | equiv_run
  | trap (e : Trap)
  /-- The end of a run. -/
  | returned

def next : Event → RwTracker → RwTracker
  | .find_rw_set read write, x => rw_tracker_enable { x with read := some read, write := some write }
  | .equiv_run, x => rw_tracker_enable x
  | .trap .step, x => rw_tracker_arm x
  | .trap (.access touched w), x =>
    if x.armed ∧ touched ≠ ∅ then rw_tracker_data_abort_handler touched w x else x
  | .returned, x => rw_tracker_disable x

def after (x : RwTracker) (events : List Event) : RwTracker := events.foldl (fun x e => next e x) x

/-- A run of the checker, with what its threads do. -/
inductive Call where
  | find_rw_set (read write : ℕ) (traps : List Trap)
  | equiv_run (traps : List Trap)

def Call.events : Call → List Event
  | .find_rw_set read write traps => .find_rw_set read write :: traps.map .trap ++ [.returned]
  | .equiv_run traps => .equiv_run :: traps.map .trap ++ [.returned]

/-- `find_rw_set` has returned. -/
def found (read write : ℕ) (traps : List Trap) (x : RwTracker) : RwTracker :=
  x.after (Call.find_rw_set read write traps).events

/-- What the two sets hold. -/
def Holds (read write : ℕ) (held : ℕ → Finset Addr) (x : RwTracker) : Prop :=
  x.sets read = held read ∧ x.sets write = held write

/-- The two sets hold the same at every moment. -/
def Frozen (read write : ℕ) (x : RwTracker) (events : List Event) : Prop :=
  ∀ es, es <+: events → Holds read write x.sets (x.after es)

/-- The set that a data abort adds to. -/
def target (x : RwTracker) (w : Bool) : Option ℕ := if w then x.write else x.read

def Call.traps : Call → List Trap
  | .find_rw_set _ _ traps => traps
  | .equiv_run traps => traps

/-- The sets of the last `find_rw_set`, when `last` are those before the call. -/
def Call.current : Call → ℕ × ℕ → ℕ × ℕ
  | .find_rw_set read write _, _ => (read, write)
  | .equiv_run _, last => last

/-- The access behind a step, before the thread takes the next one. -/
def caught : List Trap → Option (Finset Addr × Bool)
  | .access touched w :: traps => if touched = ∅ then caught traps else some (touched, w)
  | _ => none

/-- The accesses of a run that abort: the first one behind each step. -/
def aborts : List Trap → List (Finset Addr × Bool)
  | [] => []
  | .step :: traps => (caught traps).toList ++ aborts traps
  | .access _ _ :: traps => aborts traps

/-- The aborts of the rest of a run, when the checks may be on already. -/
def pending (armed : Bool) (traps : List Trap) : List (Finset Addr × Bool) :=
  (if armed then (caught traps).toList else []) ++ aborts traps

/-- An access reads bytes that were found as read, or writes bytes found as written, as far as
`read` and `write` are the sets of the last `find_rw_set`. -/
def Within (read write : ℕ) (held : ℕ → Finset Addr) (last : ℕ × ℕ) (a : Finset Addr × Bool) : Prop :=
  ∀ p, p = read ∨ p = write → (if a.2 then last.2 else last.1) = p → a.1 ⊆ held p

/-- All calls access only what was found. -/
def Covered (read write : ℕ) (held : ℕ → Finset Addr) : ℕ × ℕ → List Call → Prop
  | _, [] => True
  | last, call :: calls => (∀ a ∈ aborts call.traps, Within read write held (call.current last) a) ∧
      Covered read write held (call.current last) calls

variable {read write p : ℕ} {x : RwTracker} {e : Event} {events es : List Event} {touched : Finset Addr}
  {w : Bool} {held : ℕ → Finset Addr} {last : ℕ × ℕ} {traps : List Trap}

theorem set_union_inplace_sets (q : ℕ) : (set_union_inplace q touched x).sets p =
    if some q = some p then x.sets p ∪ touched else x.sets p := by
  rw [set_union_inplace]
  by_cases h : p = q
  · subst h
    simp
  · simp [h, Ne.symm h]

theorem data_abort_sets (touched : Finset Addr) (w : Bool) (x : RwTracker) (p : ℕ) :
    (rw_tracker_data_abort_handler touched w x).sets p =
      if x.target w = some p then x.sets p ∪ touched else x.sets p := by
  obtain ⟨enabled, armed, read, write, sets⟩ := x
  cases w with
  | false =>
    cases read with
    | none => cases write <;> rfl
    | some q => cases write <;> exact set_union_inplace_sets q
  | true =>
    cases write with
    | none => cases read <;> rfl
    | some q => exact set_union_inplace_sets q

theorem data_abort_eq (touched : Finset Addr) (w : Bool) (x : RwTracker) :
    rw_tracker_data_abort_handler touched w x =
      { x with armed := false, sets := (rw_tracker_data_abort_handler touched w x).sets } := by
  obtain ⟨enabled, armed, read, write, sets⟩ := x
  cases read <;> cases write <;> cases w <;> rfl

theorem rw_tracker_arm_eq (h : x.rw_tracker_enabled = true) : rw_tracker_arm x = { x with armed := true } :=
  if_pos h

theorem frozen_nil : Frozen read write x [] := by
  intro es hes
  rw [List.prefix_nil.mp hes]
  exact ⟨rfl, rfl⟩

/-- The sets of the last `find_rw_set` are the tracker's. -/
structure Points (last : ℕ × ℕ) (x : RwTracker) : Prop where
  read : x.read = some last.1
  write : x.write = some last.2

theorem Holds.congr (h : Holds read write held x) {z : RwTracker} :
    Holds read write x.sets z ↔ Holds read write held z := by
  rw [Holds, h.1, h.2, Holds]

theorem Points.target (h : Points last x) (w : Bool) :
    x.target w = some (if w then last.2 else last.1) := by
  cases w with
  | false => exact h.read
  | true => exact h.write

/-- What a thread does leaves the pointers alone. -/
theorem Points.trap (h : Points last x) (t : Trap) : Points last (next (.trap t) x) := by
  cases t with
  | step =>
    rw [next, rw_tracker_arm]
    split <;> exact ⟨h.read, h.write⟩
  | access touched w =>
    rw [next]
    split
    · rw [data_abort_eq]
      exact ⟨h.read, h.write⟩
    · exact h

theorem Points.after (h : Points last x) : Points last (x.after (traps.map .trap)) := by
  induction traps generalizing x with
  | nil => exact h
  | cons t traps ih => exact ih (h.trap t)

theorem pending_step (armed : Bool) : pending armed (.step :: traps) = pending true traps := by
  cases armed <;> rfl

theorem pending_access (ht : touched ≠ ∅) :
    pending true (.access touched w :: traps) = (touched, w) :: aborts traps := by
  rw [pending, if_pos rfl, caught, if_neg ht]
  rfl

theorem pending_quiet {armed : Bool} (h : ¬(armed = true ∧ touched ≠ ∅)) :
    pending armed (.access touched w :: traps) = pending armed traps := by
  cases armed with
  | false => rfl
  | true =>
    rw [pending, caught, if_pos (not_and_not_right.mp h rfl)]
    rfl

/-- A run of the threads adds what its aborts touch. The induction is over what the threads do;
when the checks are on, the next access aborts too. -/
theorem mem_after_traps (henabled : x.rw_tracker_enabled = true) (hlast : Points last x) (b : Addr) :
    b ∈ (x.after (traps.map .trap)).sets p ↔
      b ∈ x.sets p ∨ ∃ a ∈ pending x.armed traps, (if a.2 then last.2 else last.1) = p ∧ b ∈ a.1 := by
  induction traps generalizing x with
  | nil => simp [pending, caught, aborts, after]
  | cons t traps ih =>
    rw [List.map_cons, after, List.foldl_cons, ← after]
    cases t with
    | step =>
      have hnext : next (.trap .step) x = { x with armed := true } := rw_tracker_arm_eq henabled
      rw [hnext, pending_step]
      exact ih (x := { x with armed := true }) henabled ⟨hlast.read, hlast.write⟩
    | access touched w =>
      by_cases habort : x.armed = true ∧ touched ≠ ∅
      · have hnext : next (.trap (.access touched w)) x = rw_tracker_data_abort_handler touched w x :=
          if_pos habort
        have hon : (rw_tracker_data_abort_handler touched w x).rw_tracker_enabled = true := by
          rw [data_abort_eq]
          exact henabled
        have hoff : (rw_tracker_data_abort_handler touched w x).armed = false := by
          rw [data_abort_eq]
        have hadded : b ∈ (rw_tracker_data_abort_handler touched w x).sets p ↔
            b ∈ x.sets p ∨ (if w then last.2 else last.1) = p ∧ b ∈ touched := by
          rw [data_abort_sets, hlast.target]
          generalize (if w then last.2 else last.1) = q
          by_cases hq : q = p
          · simp [hq]
          · simp [hq]
        rw [hnext, ih hon (hnext ▸ hlast.trap _), hadded, hoff, habort.1, pending_access habort.2,
          List.exists_mem_cons_iff, or_assoc]
        rfl
      · have hnext : next (.trap (.access touched w)) x = x := if_neg habort
        rw [hnext, ih henabled hlast, pending_quiet habort]

theorem subset_next (e : Event) (x : RwTracker) (p : ℕ) : x.sets p ⊆ (next e x).sets p := by
  cases e with
  | find_rw_set read write => exact Finset.Subset.rfl
  | equiv_run => exact Finset.Subset.rfl
  | returned => exact Finset.Subset.rfl
  | trap t =>
    cases t with
    | step =>
      rw [next, rw_tracker_arm]
      split <;> exact Finset.Subset.rfl
    | access touched w =>
      rw [next]
      split
      · rw [data_abort_sets]
        split
        · exact Finset.subset_union_left
        · exact Finset.Subset.rfl
      · exact Finset.Subset.rfl

theorem subset_after (events : List Event) (x : RwTracker) (p : ℕ) : x.sets p ⊆ (x.after events).sets p := by
  induction events generalizing x with
  | nil => exact Finset.Subset.rfl
  | cons e events ih => exact (subset_next e x p).trans (ih (next e x))

/-- The sets only grow. -/
theorem frozen_iff_after : Frozen read write x events ↔ Holds read write x.sets (x.after events) := by
  constructor
  · intro h
    exact h events List.prefix_rfl
  · rintro ⟨hread, hwrite⟩ es ⟨rest, rfl⟩
    have hsplit : x.after (es ++ rest) = (x.after es).after rest := List.foldl_append
    rw [hsplit] at hread hwrite
    exact ⟨(hread ▸ subset_after rest (x.after es) read).antisymm (subset_after es x read),
      (hwrite ▸ subset_after rest (x.after es) write).antisymm (subset_after es x write)⟩

theorem frozen_append : Frozen read write x (es ++ events) ↔
    Frozen read write x es ∧ Frozen read write (x.after es) events := by
  have hsplit (fs : List Event) : x.after (es ++ fs) = (x.after es).after fs := List.foldl_append
  constructor
  · intro h
    have hes : Frozen read write x es := fun fs hfs => h fs (hfs.trans (List.prefix_append es events))
    refine ⟨hes, fun fs hfs => ?_⟩
    have hall := h (es ++ fs) ((List.prefix_append_right_inj es).mpr hfs)
    rw [hsplit] at hall
    exact (Holds.congr (hes es List.prefix_rfl)).mpr hall
  · rintro ⟨hes, h⟩
    rw [frozen_iff_after, hsplit]
    exact (Holds.congr (hes es List.prefix_rfl)).mp (h events List.prefix_rfl)

/-- A run of the threads leaves in the sets what was found exactly when its aborts touch that. -/
theorem holds_traps_iff (henabled : x.rw_tracker_enabled = true) (hlast : Points last x)
    (h : Holds read write held x) : Holds read write held (x.after (traps.map .trap)) ↔
      ∀ a ∈ pending x.armed traps, Within read write held last a := by
  constructor
  · rintro ⟨hread, hwrite⟩ a ha p hp ht b hb
    have hb' := (mem_after_traps henabled hlast b).mpr (.inr ⟨a, ha, ht, hb⟩)
    rcases hp with rfl | rfl
    · rwa [hread] at hb'
    · rwa [hwrite] at hb'
  · intro hwithin
    have hset : ∀ p, p = read ∨ p = write → x.sets p = held p →
        (x.after (traps.map .trap)).sets p = held p := by
      intro p hp hheld
      refine Finset.Subset.antisymm (fun b hb => ?_) (hheld ▸ subset_after (traps.map .trap) x p)
      rcases (mem_after_traps henabled hlast b).mp hb with hb | ⟨a, ha, ht, hb⟩
      · exact hheld ▸ hb
      · exact hwithin a ha p hp ht hb
    exact ⟨hset read (.inl rfl) h.1, hset write (.inr rfl) h.2⟩

/-- Where a call starts and ends: the checks are off behind it, and the pointers are those of the
last `find_rw_set`. -/
theorem frozen_call (call : Call) (hdisarmed : x.armed = false) (hlast : Points last x)
    (h : Holds read write held x) :
    (Frozen read write x call.events ↔ ∀ a ∈ aborts call.traps, Within read write held (call.current last) a) ∧
      (x.after call.events).armed = false ∧ Points (call.current last) (x.after call.events) := by
  obtain ⟨e, hevents, hon, hoff, hsets, hpoints⟩ : ∃ e, call.events = e :: (call.traps.map .trap ++ [.returned]) ∧
      (next e x).rw_tracker_enabled = true ∧ (next e x).armed = x.armed ∧ (next e x).sets = x.sets ∧
        Points (call.current last) (next e x) := by
    cases call with
    | find_rw_set read' write' traps => exact ⟨.find_rw_set read' write', rfl, rfl, rfl, rfl, rfl, rfl⟩
    | equiv_run traps => exact ⟨.equiv_run, rfl, rfl, rfl, rfl, hlast.read, hlast.write⟩
  have hheld : Holds read write held (next e x) := by
    rw [Holds, hsets]
    exact h
  have hafter : x.after call.events = ((next e x).after (call.traps.map .trap)).rw_tracker_disable := by
    rw [hevents, after, List.foldl_cons, List.foldl_append]
    rfl
  have hend : Points (call.current last) ((next e x).after (call.traps.map .trap)) := hpoints.after
  refine ⟨?_, hafter ▸ rfl, hafter ▸ ⟨hend.read, hend.write⟩⟩
  rw [frozen_iff_after, h.congr, hafter]
  exact (holds_traps_iff hon hpoints hheld).trans (by rw [hoff, hdisarmed]; rfl)

theorem frozen_calls {calls : List Call} (hdisarmed : x.armed = false) (hlast : Points last x)
    (h : Holds read write held x) : Frozen read write x (calls.flatMap Call.events) ↔
      Covered read write held last calls := by
  induction calls generalizing x last with
  | nil => exact iff_of_true frozen_nil trivial
  | cons call calls ih =>
    obtain ⟨hcall, hoff, hlast'⟩ := frozen_call call hdisarmed hlast h
    rw [List.flatMap_cons, frozen_append, Covered, ← hcall]
    refine and_congr_right fun hfrozen => ih hoff hlast' ?_
    exact h.congr.mp (hfrozen _ List.prefix_rfl)

theorem found_eq (read write : ℕ) (traps : List Trap) (y : RwTracker) : y.found read write traps =
    ((next (.find_rw_set read write) y).after (traps.map .trap)).rw_tracker_disable := by
  rw [found, Call.events, after, List.cons_append, List.foldl_cons, List.foldl_append]
  rfl

/-- What `find_rw_set` finds: the bytes of its own aborts, beside what the sets held before. -/
theorem mem_found {y : RwTracker} (hdisarmed : y.armed = false) (b : Addr) :
    b ∈ (y.found read write traps).sets p ↔
      b ∈ y.sets p ∨ ∃ a ∈ aborts traps, (if a.2 then write else read) = p ∧ b ∈ a.1 := by
  have hstart : Points (read, write) (next (.find_rw_set read write) y) := ⟨rfl, rfl⟩
  have hoff : (next (.find_rw_set read write) y).armed = false := hdisarmed
  rw [found_eq]
  refine (mem_after_traps rfl hstart b).trans ?_
  rw [hoff]
  rfl

/-- Whatever two sets are looked at, also those of an earlier `find_rw_set`. -/
theorem found_frozen (read' write' : ℕ) (traps : List Trap) (y : RwTracker) {calls : List Call} :
    Frozen read write (y.found read' write' traps) (calls.flatMap Call.events) ↔
      Covered read write (y.found read' write' traps).sets (read', write') calls := by
  have hstart : Points (read', write') (next (.find_rw_set read' write') y) := ⟨rfl, rfl⟩
  have hlast : Points (read', write') ((next (.find_rw_set read' write') y).after (traps.map .trap)) :=
    hstart.after
  rw [found_eq]
  exact frozen_calls rfl ⟨hlast.read, hlast.write⟩ ⟨rfl, rfl⟩

/-- After `find_rw_set` its sets stay as they are exactly when the later runs access only what it
found, as long as the tracker points to them. -/
theorem found_frozen_iff (read write : ℕ) (traps : List Trap) (y : RwTracker) (calls : List Call) :
    Frozen read write (y.found read write traps) (calls.flatMap Call.events) ↔
      Covered read write (y.found read write traps).sets (read, write) calls :=
  found_frozen read write traps y

theorem covered_runs (runs : List (List Trap)) : Covered read write held last (runs.map .equiv_run) ↔
    ∀ traps ∈ runs, ∀ a ∈ aborts traps, Within read write held last a := by
  induction runs with
  | nil => simp [Covered]
  | cons traps runs ih =>
    rw [List.map_cons, Covered, List.forall_mem_cons]
    exact and_congr_right fun _ => ih

/-- Under `run_interleavings` alone: every aborting load reads what was found as read, and every
aborting store writes what was found as written. -/
theorem runs_frozen_iff (read write : ℕ) (traps : List Trap) (y : RwTracker) (runs : List (List Trap)) :
    Frozen read write (y.found read write traps) ((runs.map .equiv_run).flatMap Call.events) ↔
      ∀ run ∈ runs, ∀ a ∈ aborts run,
        a.1 ⊆ (y.found read write traps).sets (if a.2 then write else read) := by
  rw [found_frozen, covered_runs]
  have hwithin (a : Finset Addr × Bool) :
      Within read write (y.found read write traps).sets (read, write) a ↔
        a.1 ⊆ (y.found read write traps).sets (if a.2 then write else read) := by
    constructor
    · intro h
      refine h _ ?_ rfl
      split
      · exact .inr rfl
      · exact .inl rfl
    · rintro h p - rfl
      exact h
  simp only [hwithin]

/-- `find_rw_set` was called with other sets. -/
def Others (read write : ℕ) (last : ℕ × ℕ) : Prop :=
  ∀ p, p = read ∨ p = write → last.1 ≠ p ∧ last.2 ≠ p

theorem Others.covered {calls : List Call} (h : Others read write last)
    (hcalls : ∀ call ∈ calls, ∀ last, Others read write last → Others read write (call.current last)) :
    Covered read write held last calls := by
  induction calls generalizing last with
  | nil => trivial
  | cons call calls ih =>
    rw [List.forall_mem_cons] at hcalls
    have hcurrent := hcalls.1 last h
    refine ⟨fun a _ p hp ht => ?_, ih hcurrent hcalls.2⟩
    obtain ⟨hread, hwrite⟩ := hcurrent p hp
    split at ht
    · exact absurd ht hwrite
    · exact absurd ht hread

/-- Only the sets of the last `find_rw_set` are at risk: those of an earlier call stay as they are. -/
theorem others_frozen {read' write' : ℕ} {calls : List Call} (h : Others read write (read', write'))
    (hcalls : ∀ call ∈ calls, ∀ last, Others read write last → Others read write (call.current last))
    (traps : List Trap) (y : RwTracker) :
    Frozen read write (y.found read' write' traps) (calls.flatMap Call.events) :=
  (found_frozen read' write' traps y).mpr (h.covered hcalls)

/-- Nothing is tracked yet. -/
def unused : RwTracker := ⟨false, false, none, none, fun _ => ∅⟩

/-- One function writes byte 4096, a second one byte 4100. -/
def second_found : RwTracker :=
  (unused.found 0 1 [.step, .access {4096} true]).found 2 3 [.step, .access {4100} true]

/-- When the functions run again, the write set of the second one gets the byte of the first. -/
theorem second_not_frozen : second_found.sets 3 = {4100} ∧
    (second_found.after (Call.equiv_run [.step, .access {4096} true]).events).sets 3 = {4096, 4100} ∧
    ¬Frozen 2 3 second_found ([Call.equiv_run [.step, .access {4096} true]].flatMap Call.events) := by
  have hgrown : (second_found.after (Call.equiv_run [.step, .access {4096} true]).events).sets 3 =
      {4096, 4100} := by decide
  refine ⟨by decide, hgrown, fun h => ?_⟩
  have hkept := (h _ List.prefix_rfl).2
  rw [List.flatMap_singleton, hgrown] at hkept
  exact absurd hkept (by decide)

end RwTracker

namespace Checker

variable {p : Platform} {s t v : Checker (List ℕ)} {x : RwTracker}

/-- The statics as the checker holds them: of every set only what it contains. -/
structure Tracks (x : RwTracker) (s : Checker (List ℕ)) : Prop where
  enabled : s.rw_tracker_enabled = x.rw_tracker_enabled
  armed : s.armed = x.armed
  read : s.current_tracker.read = x.read.map x.sets
  write : s.current_tracker.write = x.write.map x.sets
  distinct : ∀ p, x.read = some p → x.write ≠ some p

theorem Tracks.congr (h : Tracks x s) (henabled : t.rw_tracker_enabled = s.rw_tracker_enabled)
    (harmed : t.armed = s.armed) (htracker : t.current_tracker = s.current_tracker) : Tracks x t :=
  ⟨henabled.trans h.enabled, harmed.trans h.armed, htracker ▸ h.read, htracker ▸ h.write, h.distinct⟩

theorem Tracks.arm (h : Tracks x s) (henabled : t.rw_tracker_enabled = s.rw_tracker_enabled)
    (harmed : t.armed = (s.rw_tracker_enabled || s.armed))
    (htracker : t.current_tracker = s.current_tracker) : Tracks x.rw_tracker_arm t := by
  unfold RwTracker.rw_tracker_arm
  split
  · rename_i hon
    rw [← h.enabled] at hon
    rw [hon, Bool.true_or] at harmed
    exact ⟨henabled.trans h.enabled, harmed, htracker ▸ h.read, htracker ▸ h.write, h.distinct⟩
  · rename_i hoff
    rw [← h.enabled, Bool.not_eq_true] at hoff
    rw [hoff, Bool.false_or] at harmed
    exact h.congr henabled harmed htracker

theorem Tracks.handled (h : Tracks x s) (ht : Handled s t) : Tracks x.rw_tracker_arm t := by
  cases ht with
  | unmarked _ _ =>
    rw [saved_eq]
    exact h.arm rfl rfl rfl
  | counted _ _ _ _ _ =>
    rw [Checker.counted, saved_eq]
    exact h.arm rfl rfl rfl
  | switched _ _ _ _ _ _ _ =>
    rw [counted_out, saved_eq]
    exact h.arm rfl rfl rfl

theorem record_read (tr : Tracker) (touched : Finset Addr) (w : Bool) :
    (tr.record touched w).read = if w then tr.read else tr.read.map (· ∪ touched) := by
  obtain ⟨read, write⟩ := tr
  cases read <;> cases write <;> cases w <;> rfl

theorem record_write (tr : Tracker) (touched : Finset Addr) (w : Bool) :
    (tr.record touched w).write = if w then tr.write.map (· ∪ touched) else tr.write := by
  obtain ⟨read, write⟩ := tr
  cases read <;> cases write <;> cases w <;> rfl

theorem Tracks.record (h : Tracks x s) (touched : Finset Addr) (w : Bool) :
    Tracks (x.rw_tracker_data_abort_handler touched w)
      (rw_tracker_disarm { s with current_tracker := s.current_tracker.record touched w }) := by
  have hsets := RwTracker.data_abort_sets touched w x
  rw [RwTracker.data_abort_eq]
  refine ⟨h.enabled, rfl, ?_, ?_, h.distinct⟩
  · change (s.current_tracker.record touched w).read = _
    rw [record_read, h.read]
    cases hread : x.read with
    | none => cases w <;> rfl
    | some q =>
      have hq := hsets q
      cases w with
      | false => simpa [RwTracker.target, hread] using hq.symm
      | true => simpa [RwTracker.target, h.distinct q hread] using hq.symm
  · change (s.current_tracker.record touched w).write = _
    rw [record_write, h.write]
    cases hwrite : x.write with
    | none => cases w <;> rfl
    | some q =>
      have hq := hsets q
      have hne : x.read ≠ some q := fun hread => h.distinct q hread hwrite
      cases w with
      | false => simpa [RwTracker.target, hne] using hq.symm
      | true => simpa [RwTracker.target, hwrite] using hq.symm

theorem ctx_switch_handler_tracks {touched : Finset Addr} {pc : Word} (h : Tracks x s)
    (ht : ctx_switch_handler touched pc s = .ok t) : Tracks x t := by
  unfold ctx_switch_handler at ht
  split at ht
  · cases ht
    exact h
  · split at ht
    · cases ht
      exact h
    · split at ht
      · cases ht
      · split at ht
        · cases ht
          split <;> exact h.congr rfl rfl rfl
        · cases ht
          exact h

theorem Tracks.access {touched : Finset Addr} {w : Bool} (h : Tracks x s)
    (ht : access touched w s = .ok t) : Tracks (RwTracker.next (.trap (.access touched w)) x) t := by
  unfold Checker.access at ht
  rw [RwTracker.next, ← h.armed]
  split at ht
  · rename_i habort
    obtain ⟨v, hv, ht⟩ := bind_ok_iff.mp ht
    cases ht
    rw [if_pos habort]
    have hvx : Tracks x v := by
      unfold memory_touch_handler at hv
      split at hv
      · exact ctx_switch_handler_tracks h hv
      · cases hv
        exact h
    exact hvx.record touched w
  · rename_i hquiet
    cases ht
    rw [if_neg hquiet]
    exact h

/-- What the checker does with its threads are traps of the tracker. -/
theorem Tracks.step {r : Progress (Checker (List ℕ))} (h : Tracks x s) (hr : step p s = .ok r) :
    ∃ traps : List RwTracker.Trap, Tracks (x.after (traps.map .trap)) r.state := by
  obtain ⟨v, hv, hr⟩ := bind_ok_iff.mp hr
  obtain ⟨traps, hvx⟩ : ∃ traps : List RwTracker.Trap, Tracks (x.after (traps.map .trap)) v := by
    unfold prefetch at hv
    split at hv
    · cases hv
      exact ⟨[], h⟩
    · obtain ⟨u, hu, hv⟩ := bind_ok_iff.mp hv
      cases hv
      exact ⟨[.step], (h.handled (equiv_hash_handler_iff.mp hu)).congr rfl rfl rfl⟩
  split at hr
  · rename_i touched w regs mem _
    obtain ⟨v', hv', hr⟩ := bind_ok_iff.mp hr
    cases hr
    refine ⟨traps ++ [.access touched w], ?_⟩
    rw [List.map_append, RwTracker.after, List.foldl_append]
    exact (hvx.access hv').congr rfl rfl rfl
  · refine ⟨traps, ?_⟩
    cases equiv_syscall_handler_iff.mp hr with
    | putc_back _ _ _ _ _ => exact hvx.congr rfl rfl rfl
    | putc_next _ _ _ _ _ => exact hvx.congr rfl rfl rfl
    | yield _ _ _ _ => exact hvx.congr rfl rfl rfl
    | exit_last _ _ _ _ => exact hvx.congr rfl rfl rfl
    | exit_next _ _ _ _ => exact hvx.congr rfl rfl rfl

theorem Tracks.steps {r : Progress (Checker (List ℕ))} {fuel : ℕ} (h : Tracks x s)
    (hr : steps p fuel s = .ok r) :
    ∃ traps : List RwTracker.Trap, Tracks (x.after (traps.map .trap)) r.state := by
  have hstep : ∀ v r, (∃ traps : List RwTracker.Trap, Tracks (x.after (traps.map .trap)) v) →
      Checker.step p v = .ok r →
        ∃ traps : List RwTracker.Trap, Tracks (x.after (traps.map .trap)) r.state := by
    rintro v r ⟨traps, hv⟩ hr
    obtain ⟨traps', ht⟩ := hv.step hr
    refine ⟨traps ++ traps', ?_⟩
    rw [List.map_append, RwTracker.after, List.foldl_append]
    exact ht
  rcases steps_invariant (P := fun v => ∃ traps : List RwTracker.Trap, Tracks (x.after (traps.map .trap)) v)
    (fun v _ hv hw => hstep v _ hv hw) ⟨[], h⟩ hr with
    ⟨t, rfl, ht⟩ | ⟨v, t, rfl, hv, hlast⟩
  · exact ht
  · exact hstep v _ hv hlast

/-- `find_rw_set`, with what the two sets hold. -/
def find_rw_set (p : Platform) (fuel : ℕ) (exe : Word) (read write : Finset Addr) (s : Checker (List ℕ)) :
    Except Fault (Progress (Checker (List ℕ))) := do
  let s := { disable_ctx_switch s with
    current_tracker := ⟨some read, some write⟩, rw_tracker_enabled := true }
  let (_, s) ← equiv_fork p exe 0 s
  match ← equiv_run p fuel s with
  | .running s => .ok (.running s)
  | .finished s => do
    let s ← Interleaver.reset_ntids { rw_tracker_disarm s with rw_tracker_enabled := false }
    .ok (.finished s)

theorem Tracks.returned (h : Tracks x s) :
    Tracks x.rw_tracker_disable { rw_tracker_disarm s with rw_tracker_enabled := false } :=
  ⟨rfl, rfl, h.read, h.write, h.distinct⟩

theorem after_call (e : RwTracker.Event) (traps : List RwTracker.Trap) (x : RwTracker) :
    x.after (e :: traps.map .trap ++ [.returned]) =
      ((RwTracker.next e x).after (traps.map .trap)).rw_tracker_disable := by
  rw [RwTracker.after, List.cons_append, List.foldl_cons, List.foldl_append]
  rfl

theorem Tracks.equiv_fork {fn args : Word} {th : ℕ} (h : Tracks x s)
    (ht : equiv_fork p fn args s = .ok (th, t)) : Tracks x t := by
  obtain ⟨_, -, ht⟩ := bind_ok_iff.mp ht
  cases ht
  exact h.congr rfl rfl rfl

theorem Tracks.equiv_run_start (h : Tracks x s) (ht : equiv_run_start s = .ok t) : Tracks x t := by
  unfold Checker.equiv_run_start at ht
  split at ht
  · split at ht
    · cases ht
    · cases ht
      exact h.congr rfl rfl rfl
  · obtain ⟨_, -, ht⟩ := bind_ok_iff.mp ht
    obtain ⟨⟨th, v⟩, hv, ht⟩ := bind_ok_iff.mp ht
    obtain ⟨q, rfl, -, -⟩ := retrieve_tid_from_queue_spec hv
    cases ht
    exact h.congr rfl rfl rfl

/-- A run of `find_rw_set` that returns is one of the tracker. -/
theorem find_rw_set_tracks {fuel read write : ℕ} {exe : Word} (h : Tracks x s) (hne : read ≠ write)
    (ht : find_rw_set p fuel exe (x.sets read) (x.sets write) s = .ok (.finished t)) :
    ∃ traps, Tracks (x.found read write traps) t := by
  obtain ⟨⟨th, v⟩, hv, ht⟩ := bind_ok_iff.mp ht
  obtain ⟨r, hr, ht⟩ := bind_ok_iff.mp ht
  obtain ⟨u, hu, hr⟩ := bind_ok_iff.mp hr
  have hbegin : Tracks (RwTracker.next (.find_rw_set read write) x) { disable_ctx_switch s with
      current_tracker := ⟨some (x.sets read), some (x.sets write)⟩, rw_tracker_enabled := true } := by
    refine ⟨rfl, h.armed, rfl, rfl, fun q hread hwrite => hne ?_⟩
    cases hread
    cases hwrite
    rfl
  obtain ⟨traps, htraps⟩ := ((hbegin.equiv_fork hv).equiv_run_start hu).steps hr
  refine ⟨traps, ?_⟩
  rw [RwTracker.found, RwTracker.Call.events, after_call]
  cases r with
  | running w => cases ht
  | finished w =>
    obtain ⟨w', hw', ht⟩ := bind_ok_iff.mp ht
    cases ht
    unfold Interleaver.reset_ntids at hw'
    split at hw'
    · cases hw'
      exact htraps.returned.congr rfl rfl rfl
    · cases hw'

end Checker

namespace Interleaver.Setup

open Checker

variable {u : Setup} {s t : Checker (List ℕ)} {σ : Schedule} {x : RwTracker} {fuel : ℕ}

/-- An iteration of `run_interleavings` is a run of the tracker. -/
theorem execute_tracks (h : Tracks x s) (ht : u.execute fuel σ s = .ok (.finished t)) :
    ∃ traps, Tracks (x.after (RwTracker.Call.equiv_run traps).events) (leave t) := by
  obtain ⟨v, ⟨-, tid, th, q, -, -, rfl⟩, hsteps⟩ := execute_iff.mp ht
  have henter : Tracks x.rw_tracker_enable { u.entered σ s with
      equiv_runq := q, cur_thread := some th, mismatch := 0, regs := ((u.entered σ s).threads th).regs } :=
    ⟨rfl, h.armed, h.read, h.write, h.distinct⟩
  obtain ⟨traps, htraps⟩ := henter.steps hsteps
  refine ⟨traps, ?_⟩
  rw [RwTracker.Call.events, after_call]
  exact htraps.returned.congr rfl rfl rfl

/-- So is the whole loop. -/
theorem loop_tracks {y z : Explorer (List ℕ)} (h : Tracks x y.checker)
    (hz : u.loop fuel y = .ok (.finished z)) :
    ∃ runs : List (List RwTracker.Trap),
      Tracks (x.after ((runs.map RwTracker.Call.equiv_run).flatMap RwTracker.Call.events)) z.checker := by
  induction fuel generalizing y x with
  | zero => cases hz
  | succ fuel ih =>
    obtain ⟨r, hr, hz⟩ := bind_ok_iff.mp hz
    cases r with
    | running s => cases hz
    | finished s =>
      obtain ⟨traps, htraps⟩ := execute_tracks h hr
      obtain ⟨r', -, hz⟩ := bind_ok_iff.mp hz
      cases r' with
      | none =>
        cases hz
        refine ⟨[traps], ?_⟩
        rw [List.map_singleton, List.flatMap_singleton]
        exact htraps
      | some next =>
        obtain ⟨runs, hruns⟩ := ih htraps hz
        refine ⟨traps :: runs, ?_⟩
        rw [List.map_cons, List.flatMap_cons, RwTracker.after, List.foldl_append]
        exact hruns

end Interleaver.Setup

end EquivChecker
