import EquivChecker.BitSetters
import Mathlib.Tactic.IntervalCases

/-!
# The mismatch breakpoint

`mini-step.c` single-steps with one breakpoint that fires at every instruction of user level
but the one in `bvr0`. The calls of the checker are histories of the operations below; the
breakpoint is on exactly between `mismatch_on` and `mismatch_off`, and an assertion fails
exactly when these do not alternate.
-/

namespace EquivChecker.MiniStep

/-- The registers of the debug coprocessor that are used, and the static of `mini-step.c`.
The status register is the dscr. -/
structure Debug where
  dscr : Word
  bcr0 : Word
  bvr0 : Word
  single_step_on_p : Bool
  deriving DecidableEq, Repr

section Code
variable (lib : BitSetters)

def cp14_is_enabled (d : Debug) : Bool :=
  lib.bit_isset d.dscr 15 ≠ 0 ∧ ¬lib.bit_isset d.dscr 14 ≠ 0

def cp14_enable (d : Debug) : Debug := { d with dscr := lib.bit_set d.dscr 15 }

def cp14_disable (d : Debug) : Debug :=
  if ¬cp14_is_enabled lib d then d
  else { d with dscr := lib.bit_clr (lib.bit_set d.dscr 14) 15 }

def cp14_bcr0_is_enabled (d : Debug) : Bool := lib.bit_isset d.bcr0 0 ≠ 0

def cp14_bcr0_enable (d : Debug) : Debug :=
  let status := lib.bit_set d.bcr0 0
  let status := lib.bits_set status 1 2 0b11
  let status := lib.bits_set status 5 8 0b1111
  let status := lib.bits_clr status 14 15
  let status := lib.bit_clr status 20
  { d with bcr0 := status }

def cp14_bcr0_disable (d : Debug) : Debug := { d with bcr0 := lib.bit_clr d.bcr0 0 }

/-- The old pc is returned. -/
def mismatch_pc_set (pc : Word) (d : Debug) : Except Fault (Word × Debug) :=
  if ¬d.single_step_on_p then .error (.panic "single_step_on_p")
  else
    let old_pc := d.bvr0
    let d := cp14_bcr0_enable lib d
    let d := { d with bcr0 := lib.bits_set d.bcr0 21 22 0b10 }
    let d := { d with bvr0 := pc }
    if d.bvr0 ≠ pc then .error (.panic "cp14_bvr0_get() == pc") else .ok (old_pc, d)

def mismatch_on (d : Debug) : Except Fault Debug :=
  if d.single_step_on_p then .error (.panic "!single_step_on_p")
  else do
    let d := cp14_enable lib { d with single_step_on_p := true }
    let (_, d) ← mismatch_pc_set lib 0 d
    .ok d

def mismatch_off (d : Debug) : Except Fault Debug :=
  if ¬d.single_step_on_p then .error (.panic "single_step_on_p")
  else
    let d := { d with single_step_on_p := false }
    let d := { d with bcr0 := lib.bits_set d.bcr0 21 22 0b00 }
    .ok (cp14_bcr0_disable lib d)

/-- The handlers that `mini_step_init` installs are left out. -/
def mini_step_init (d : Debug) : Except Fault Debug :=
  let d := cp14_enable lib d
  if cp14_bcr0_is_enabled lib d then .error (.panic "!cp14_bcr0_is_enabled()")
  else if cp14_bcr0_is_enabled lib d then .error (.panic "!cp14_bcr0_is_enabled()")
  else .ok d

end Code

/-- The breakpoint fires before the instruction at `pc` of user level: debugging is enabled and
not halting, the breakpoint is enabled, not linked, for user level, in both worlds and for all
bytes of a word, and the words match or mismatch as bits 21 and 22 say. -/
def fires (d : Debug) (pc : Word) : Bool :=
  d.dscr.getLsbD 15 && !d.dscr.getLsbD 14 && d.bcr0.getLsbD 0 && d.bcr0.getLsbD 2 &&
    (d.bcr0.extractLsb' 5 4 == 0b1111) && (d.bcr0.extractLsb' 14 2 == 0) && !d.bcr0.getLsbD 20 &&
    if d.bcr0.extractLsb' 21 2 = 0b10 then pc >>> 2 != d.bvr0 >>> 2
    else d.bcr0.extractLsb' 21 2 = 0b00 && pc >>> 2 == d.bvr0 >>> 2

/-- A call of one of the functions that touch the breakpoint. -/
inductive Call where
  | init
  | on
  | pcSet (pc : Word)
  | off
  deriving DecidableEq, Repr

def Call.exec (lib : BitSetters) : Call → Debug → Except Fault Debug
  | .init, d => mini_step_init lib d
  | .on, d => mismatch_on lib d
  | .pcSet pc, d => do
    let (_, d) ← mismatch_pc_set lib pc d
    .ok d
  | .off, d => mismatch_off lib d

def execAll (lib : BitSetters) : List Call → Debug → Except Fault Debug
  | [], d => .ok d
  | c :: calls, d => do execAll lib calls (← c.exec lib d)

/-- What stepping is for: it is off, or every instruction but the one at a given address is
stopped at. A call that is out of place is refused. -/
def Call.next : Call → Option Word → Option (Option Word)
  | .init, none => some none
  | .on, none => some (some 0)
  | .pcSet pc, some _ => some (some pc)
  | .off, some _ => some none
  | _, _ => none

def nextAll : List Call → Option Word → Option (Option Word)
  | [], s => some s
  | c :: calls, s => (c.next s).bind (nextAll calls)

/-- The bits of `bcr0` that stepping uses. -/
def used (i : ℕ) : Prop := i ≤ 2 ∨ (5 ≤ i ∧ i ≤ 8) ∨ i = 14 ∨ i = 15 ∨ (20 ≤ i ∧ i ≤ 22)

/-- The registers are as the state of stepping says. -/
structure Agrees (d : Debug) (s : Option Word) : Prop where
  static : d.single_step_on_p = s.isSome
  monitor : d.dscr.getLsbD 14 = false
  off : s = none → d.bcr0.getLsbD 0 = false
  on : ∀ q, s = some q → d.dscr.getLsbD 15 = true ∧ d.bvr0 = q ∧
    (∀ i, i ≤ 2 ∨ (5 ≤ i ∧ i ≤ 8) ∨ i = 22 → d.bcr0.getLsbD i = true) ∧
    ∀ i, i = 14 ∨ i = 15 ∨ i = 20 ∨ i = 21 → d.bcr0.getLsbD i = false

/-- Only the bits that stepping uses have changed. -/
def Keeps (d d' : Debug) : Prop := ∀ i < 32, ¬used i → d'.bcr0.getLsbD i = d.bcr0.getLsbD i

variable {lib : BitSetters} {d d' : Debug} {s s' : Option Word} {c : Call} {pc q : Word}

theorem bcr0_enable_bit {i : ℕ} (hi : i < 32) : (cp14_bcr0_enable lib d).bcr0.getLsbD i =
    if i ≤ 2 ∨ (5 ≤ i ∧ i ≤ 8) then true else if i = 14 ∨ i = 15 ∨ i = 20 then false
    else d.bcr0.getLsbD i := by
  unfold cp14_bcr0_enable
  dsimp only
  rw [lib.bit_clr_eq _ _ (by decide) i hi, lib.bits_clr_eq _ _ _ (by decide) (by decide) i hi,
    lib.bits_set_eq _ _ _ _ (by decide) (by decide) (by decide) i hi,
    lib.bits_set_eq _ _ _ _ (by decide) (by decide) (by decide) i hi, lib.bit_set_eq _ _ (by decide) i hi]
  interval_cases i <;> simp

/-- `bcr0` when the breakpoint is set for mismatches. -/
def stepping (lib : BitSetters) (d : Debug) : Word := lib.bits_set (cp14_bcr0_enable lib d).bcr0 21 22 0b10

theorem stepping_bit {i : ℕ} (hi : i < 32) : (stepping lib d).getLsbD i =
    if i ≤ 2 ∨ (5 ≤ i ∧ i ≤ 8) ∨ i = 22 then true else if i = 14 ∨ i = 15 ∨ i = 20 ∨ i = 21 then false
    else d.bcr0.getLsbD i := by
  rw [stepping, lib.bits_set_eq _ _ _ _ (by decide) (by decide) (by decide) i hi, bcr0_enable_bit hi]
  interval_cases i <;> simp

theorem mismatch_pc_set_on (lib : BitSetters) (pc : Word) (h : d.single_step_on_p = true) :
    mismatch_pc_set lib pc d =
    .ok (d.bvr0, { d with bcr0 := stepping lib d, bvr0 := pc }) := by
  rw [mismatch_pc_set, if_neg (not_not.mpr h)]
  exact if_neg (not_not.mpr rfl)

/-- The registers after `mismatch_pc_set`. -/
theorem agrees_stepping (lib : BitSetters) (h15 : d.dscr.getLsbD 15 = true) (h14 : d.dscr.getLsbD 14 = false)
    (hon : d.single_step_on_p = true) :
    Agrees { d with bcr0 := stepping lib d, bvr0 := pc } (some pc) where
  static := hon
  monitor := h14
  off h := absurd h (Option.some_ne_none pc)
  on q hq := by
    refine ⟨h15, Option.some.inj hq, fun i hi => ?_, fun i hi => ?_⟩
    · exact (stepping_bit (by omega)).trans (if_pos hi)
    · exact (stepping_bit (by omega)).trans ((if_neg (by omega)).trans (if_pos hi))

theorem keeps_stepping (lib : BitSetters) : Keeps d { d with bcr0 := stepping lib d, bvr0 := pc } := by
  intro i hi hused
  rw [used] at hused
  exact (stepping_bit hi).trans ((if_neg (by omega)).trans (if_neg (by omega)))

theorem enable_bit (i : ℕ) (hi : i < 32) :
    (cp14_enable lib d).dscr.getLsbD i = (decide (i = 15) || d.dscr.getLsbD i) :=
  lib.bit_set_eq _ _ (by decide) i hi

theorem bcr0_is_enabled_iff : cp14_bcr0_is_enabled lib d = true ↔ d.bcr0.getLsbD 0 = true := by
  rw [cp14_bcr0_is_enabled, decide_eq_true_iff]
  exact lib.isset_iff (by decide)

/-- `bcr0` after `mismatch_off`. -/
def stopped (lib : BitSetters) (d : Debug) : Word := lib.bit_clr (lib.bits_set d.bcr0 21 22 0b00) 0

theorem stopped_bit {i : ℕ} (hi : i < 32) : (stopped lib d).getLsbD i =
    if i = 0 ∨ i = 21 ∨ i = 22 then false else d.bcr0.getLsbD i := by
  rw [stopped, lib.bit_clr_eq _ _ (by decide) i hi,
    lib.bits_set_eq _ _ _ _ (by decide) (by decide) (by decide) i hi]
  interval_cases i <;> simp

theorem Agrees.enabled (h : Agrees d s) : (cp14_enable lib d).dscr.getLsbD 15 = true ∧
    (cp14_enable lib d).dscr.getLsbD 14 = false := by
  refine ⟨enable_bit 15 (by decide), ?_⟩
  rw [enable_bit 14 (by decide), h.monitor]
  rfl

/-- A call that is in place. -/
theorem exec_allowed (lib : BitSetters) (h : Agrees d s) (hs' : c.next s = some s') :
    ∃ d', c.exec lib d = .ok d' ∧ Agrees d' s' ∧ Keeps d d' := by
  cases c with
  | init =>
    cases s with
    | none =>
      cases hs'
      have hoff : ¬cp14_bcr0_is_enabled lib (cp14_enable lib d) = true := by
        have hbit : d.bcr0.getLsbD 0 = false := h.off rfl
        rw [bcr0_is_enabled_iff, cp14_enable, hbit]
        decide
      have hagrees : Agrees (cp14_enable lib d) none :=
        ⟨h.static, (h.enabled).2, h.off, fun q hq => absurd hq.symm (Option.some_ne_none q)⟩
      exact ⟨_, (if_neg hoff).trans (if_neg hoff), hagrees, fun _ _ _ => rfl⟩
    | some q => cases hs'
  | on =>
    cases s with
    | none =>
      cases hs'
      have hstatic : ¬d.single_step_on_p = true := by
        rw [h.static]
        decide
      let d₁ := cp14_enable lib { d with single_step_on_p := true }
      have henabled : d₁.dscr.getLsbD 15 = true ∧ d₁.dscr.getLsbD 14 = false := h.enabled
      refine ⟨{ d₁ with bcr0 := stepping lib d₁, bvr0 := 0 }, ?_,
        agrees_stepping lib henabled.1 henabled.2 rfl, keeps_stepping lib⟩
      have hset := mismatch_pc_set_on lib 0 (show d₁.single_step_on_p = true from rfl)
      rw [Call.exec, mismatch_on, if_neg hstatic]
      change mismatch_pc_set lib 0 d₁ >>= _ = _
      rw [hset]
      rfl
    | some q => cases hs'
  | pcSet pc =>
    cases s with
    | none => cases hs'
    | some q =>
      cases hs'
      refine ⟨_, ?_, agrees_stepping lib (h.on q rfl).1 h.monitor h.static, keeps_stepping lib⟩
      rw [Call.exec, mismatch_pc_set_on lib pc h.static]
      rfl
  | off =>
    cases s with
    | none => cases hs'
    | some q =>
      cases hs'
      have hstatic : d.single_step_on_p = true := h.static
      refine ⟨{ d with single_step_on_p := false, bcr0 := stopped lib d }, ?_,
        ⟨rfl, h.monitor, fun _ => ?_, ?_⟩, ?_⟩
      · exact if_neg (not_not.mpr hstatic)
      · exact stopped_bit (by decide)
      · exact fun q hq => absurd hq.symm (Option.some_ne_none q)
      · intro i hi hused
        rw [used] at hused
        exact (stopped_bit hi).trans (if_neg (by omega))

/-- A call that is out of place. -/
theorem exec_refused (lib : BitSetters) (h : Agrees d s) (hs' : c.next s = none) :
    ∃ msg, c.exec lib d = .error (.panic msg) := by
  cases s with
  | none =>
    have hstatic : ¬d.single_step_on_p = true := by
      rw [h.static]
      decide
    cases c with
    | init => cases hs'
    | on => cases hs'
    | pcSet pc =>
      refine ⟨"single_step_on_p", ?_⟩
      rw [Call.exec, mismatch_pc_set, if_pos hstatic]
      rfl
    | off => exact ⟨_, if_pos hstatic⟩
  | some q =>
    have hstatic : d.single_step_on_p = true := h.static
    cases c with
    | init =>
      have hon : cp14_bcr0_is_enabled lib (cp14_enable lib d) = true :=
        bcr0_is_enabled_iff.mpr ((h.on q rfl).2.2.1 0 (by omega))
      exact ⟨_, if_pos hon⟩
    | on => exact ⟨_, if_pos hstatic⟩
    | pcSet pc => cases hs'
    | off => cases hs'

theorem Agrees.fires_iff (h : Agrees d s) : fires d pc = true ↔ ∃ q, s = some q ∧ pc >>> 2 ≠ q >>> 2 := by
  cases s with
  | none =>
    rw [fires, h.off rfl]
    simp
  | some q =>
    obtain ⟨h15, hq, hset, hclear⟩ := h.on q rfl
    have h21 : d.bcr0.extractLsb' 21 2 = 0b10 := by
      refine BitVec.eq_of_getLsbD_eq fun i hi => ?_
      rw [BitVec.getLsbD_extractLsb']
      interval_cases i
      · rw [hclear _ (by omega)]
        rfl
      · rw [hset _ (by omega)]
        rfl
    have h5 : d.bcr0.extractLsb' 5 4 = 0b1111 := by
      refine BitVec.eq_of_getLsbD_eq fun i hi => ?_
      rw [BitVec.getLsbD_extractLsb', hset _ (by omega)]
      interval_cases i <;> rfl
    have hworld : d.bcr0.extractLsb' 14 2 = 0 := by
      refine BitVec.eq_of_getLsbD_eq fun i hi => ?_
      rw [BitVec.getLsbD_extractLsb', hclear _ (by omega)]
      interval_cases i <;> rfl
    rw [fires, h15, h.monitor, hset 0 (by omega), hset 2 (by omega), h5, hworld, hclear 20 (by omega),
      if_pos h21, hq]
    simp

theorem Keeps.trans {d'' : Debug} (h : Keeps d d') (h' : Keeps d' d'') : Keeps d d'' := fun i hi hused =>
  (h' i hi hused).trans (h i hi hused)

theorem execAll_allowed (lib : BitSetters) {calls : List Call} (h : Agrees d s) (hs' : nextAll calls s = some s') :
    ∃ d', execAll lib calls d = .ok d' ∧ Agrees d' s' ∧ Keeps d d' := by
  induction calls generalizing d s with
  | nil =>
    cases hs'
    exact ⟨d, rfl, h, fun _ _ _ => rfl⟩
  | cons c calls ih =>
    obtain ⟨s₁, hs₁, hrest⟩ := Option.bind_eq_some_iff.mp hs'
    obtain ⟨d₁, hd₁, hagrees, hkeeps⟩ := exec_allowed lib h hs₁
    obtain ⟨d', hd', hagrees', hkeeps'⟩ := ih hagrees hrest
    refine ⟨d', ?_, hagrees', hkeeps.trans hkeeps'⟩
    rw [execAll, hd₁]
    exact hd'

theorem execAll_refused (lib : BitSetters) {calls : List Call} (h : Agrees d s) (hs' : nextAll calls s = none) :
    ∃ msg, execAll lib calls d = .error (.panic msg) := by
  induction calls generalizing d s with
  | nil => cases hs'
  | cons c calls ih =>
    rw [execAll]
    cases hs₁ : c.next s with
    | none =>
      obtain ⟨msg, hmsg⟩ := exec_refused lib h hs₁
      rw [hmsg]
      exact ⟨msg, rfl⟩
    | some s₁ =>
      obtain ⟨d₁, hd₁, hagrees, -⟩ := exec_allowed lib h hs₁
      rw [hd₁]
      refine ih hagrees ?_
      rwa [nextAll, hs₁] at hs'

/-- Whatever is called in whatever order: an assertion fails exactly where a call is out of place,
and otherwise the breakpoint stops at every instruction of user level but the last one set, while
stepping is on, and at none while it is off. -/
theorem debug_refines_stepping (lib : BitSetters) (calls : List Call) (d : Debug)
    (hoff : d.single_step_on_p = false) (hmonitor : d.dscr.getLsbD 14 = false)
    (hdisabled : d.bcr0.getLsbD 0 = false) :
    (∀ s, nextAll calls none = some s → ∃ d', execAll lib calls d = .ok d' ∧ Keeps d d' ∧
      ∀ pc, fires d' pc = true ↔ ∃ q, s = some q ∧ pc >>> 2 ≠ q >>> 2) ∧
    (nextAll calls none = none → ∃ msg, execAll lib calls d = .error (.panic msg)) := by
  have hagrees : Agrees d none :=
    ⟨hoff, hmonitor, fun _ => hdisabled, fun q hq => absurd hq.symm (Option.some_ne_none q)⟩
  refine ⟨fun s hs => ?_, execAll_refused lib hagrees⟩
  obtain ⟨d', hd', hagrees', hkeeps⟩ := execAll_allowed lib hagrees hs
  exact ⟨d', hd', hkeeps, fun pc => hagrees'.fires_iff⟩

/-- Two runs of the checker, and a call after the second. -/
theorem debug_refines_stepping_runs :
    (∃ d, execAll .libpi [.init, .on, .pcSet 0, .pcSet 0x300010, .off, .init, .on, .pcSet 0x300020]
      ⟨0, 0, 0, false⟩ = .ok d ∧ fires d 0x300024 = true ∧ fires d 0x300020 = false) ∧
    ∃ msg, execAll .libpi [.on, .off, .pcSet 0] ⟨0, 0, 0, false⟩ = .error (.panic msg) := by
  have h := fun calls => debug_refines_stepping .libpi calls ⟨0, 0, 0, false⟩ rfl rfl rfl
  refine ⟨?_, (h [.on, .off, .pcSet 0]).2 rfl⟩
  obtain ⟨d, hd, -, hfires⟩ := (h [.init, .on, .pcSet 0, .pcSet 0x300010, .off, .init, .on, .pcSet 0x300020]).1
    (some 0x300020) rfl
  refine ⟨d, hd, (hfires _).mpr ⟨_, rfl, by decide⟩, ?_⟩
  rw [Bool.eq_false_iff]
  intro hat
  obtain ⟨q, hq, hne⟩ := (hfires _).mp hat
  cases hq
  exact hne rfl

end EquivChecker.MiniStep
