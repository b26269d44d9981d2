import EquivChecker.InterleavingsExplored
import EquivChecker.SerialReference

/-!
# Interleavings without preemptions

The interleavings without preemptions end where `find_good_hashes` ends when it calls the functions in
some order, but for the bytes of the stacks.
-/

namespace EquivChecker.RunInterleaving

open Interleaving Checker SwitchPoints SerialReference Verdict

section Exits
variable {p : Platform} {D : Set Addr} {call : Word → Word → Mem → Mem} {regs regs' regs'' : Regs}
  {mem mem' mem₁ mem₂ : Mem}

/-- Up to its exit a function does the same on memory that is the same where it may read. -/
theorem exits_agree (hreads : p.ReadsOnly D) (h : Exits p regs mem regs' mem₁)
    (hmem : ∀ a ∈ D, mem' a = mem a) : ∃ mem₁', Exits p regs mem' regs' mem₁' ∧ ∀ a ∈ D, mem₁' a = mem₁ a := by
  induction h generalizing mem' with
  | @exit regs regs' mem hfetch hexit =>
    have hagree := hreads regs mem mem' hmem
    rw [hfetch] at hagree
    generalize hi : p.fetch regs mem' = instr at hagree
    cases hagree
    exact ⟨mem', .exit hi hexit, hmem⟩
  | @step regs regs₁ regs' mem mem₁ mem₂ touched w hfetch _ ih =>
    have hagree := hreads regs mem mem' hmem
    rw [hfetch] at hagree
    generalize hi : p.fetch regs mem' = instr at hagree
    cases hagree with
    | exec hnext =>
      obtain ⟨mem₂', hexits, hsame⟩ := ih hnext
      exact ⟨mem₂', .step hi hexits, hsame⟩

theorem exits_unique (h : Exits p regs mem regs' mem₁) (h' : Exits p regs mem regs'' mem₂) : mem₁ = mem₂ := by
  induction h with
  | exit hfetch =>
    cases h' with
    | exit => rfl
    | step hfetch' => cases hfetch.symm.trans hfetch'
  | step hfetch _ ih =>
    cases h' with
    | exit hfetch' => cases hfetch.symm.trans hfetch'
    | step hfetch' hrest =>
      cases hfetch.symm.trans hfetch'
      exact ih hrest

/-- What a function does where it may read depends on nothing else. -/
theorem realises_agree {cs : Set (Word × Word)} {ths : Set ℕ} {scratch : Set Addr}
    (hp : Realises p cs ths scratch call) (hreads : p.ReadsOnly D) {x : ℕ} {t : EqTh}
    (hstarts : Starts p cs ths x t) (hmem : Set.EqOn mem' mem (D \ scratch)) :
    Set.EqOn (call t.fn t.args mem') (call t.fn t.args mem) (D \ scratch) := by
  classical
  -- the same memory outside the stacks as `mem'`, and the same where it may be read as `mem`
  let between : Mem := fun a => if a ∈ scratch then mem a else mem' a
  have hbetween : Set.EqOn between mem' scratchᶜ := fun a ha => if_neg ha
  have hread : ∀ a ∈ D, between a = mem a := by
    intro a ha
    by_cases hs : a ∈ scratch
    · exact if_pos hs
    · exact (if_neg hs).trans (hmem ⟨ha, hs⟩)
  obtain ⟨regs, mem₁, hexits, -, hcall⟩ := hp.runs x t hstarts mem mem (Set.eqOn_refl mem _)
  obtain ⟨regs', mem₁', hexits', -, hcall'⟩ := hp.runs x t hstarts between mem' hbetween
  obtain ⟨mem₂, hsame, hagree⟩ := exits_agree hreads hexits hread
  obtain rfl := exits_unique hsame hexits'
  intro a ha
  rw [← hcall' ha.2, hagree a ha.1, hcall ha.2]

end Exits

section Serial
variable {p : Platform} {s : Config ℕ (Option Regs) Addr (BitVec 8)}
  {i j : ℕ} {q σ : List ℕ} {regs regs' : Regs} {mem mem' : Mem} {n : ℕ}

theorem step_exec (fp : Footprints p) {touched : Finset Addr} {w : Bool} (hregs : s.regs i = some regs)
    (hfetch : p.fetch regs s.mem = .exec touched w regs' mem') :
    Interleaving.step fp.machine s i = ⟨Function.update s.regs i (some regs'), mem'⟩ ∧
      (event fp.machine s i).exits = false := by
  have hexec : fp.machine.exec (s.regs i) s.mem = (some regs', mem') := by
    rw [hregs]
    change execOne p (some regs) s.mem = _
    simp only [execOne, hfetch]
  rw [Interleaving.step, event, hexec]
  exact ⟨rfl, rfl⟩

theorem step_trap (fp : Footprints p) (hregs : s.regs i = some regs)
    (hfetch : p.fetch regs s.mem = .swi regs') :
    Interleaving.step fp.machine s i = ⟨Function.update s.regs i none, s.mem⟩ ∧
      (event fp.machine s i).exits = true := by
  have hexec : fp.machine.exec (s.regs i) s.mem = (none, s.mem) := by
    rw [hregs]
    change execOne p (some regs) s.mem = _
    simp only [execOne, hfetch]
  rw [Interleaving.step, event, hexec]
  exact ⟨rfl, rfl⟩

/-- A thread runs to its exit without a schedule, and then the next one of the queue does. -/
theorem exists_obeys_exit (fp : Footprints p) (shared : Set Addr) (h : Exits p regs mem regs' mem')
    (hregs : s.regs i = some regs) (hmem : s.mem = mem) :
    ∃ s', s'.mem = mem' ∧ (∀ k, k ≠ i → s'.regs k = s.regs k) ∧
      (q = [] → ∃ σ, Obeys fp.machine shared q i [] s σ 0 ∧ (Interleaving.run fp.machine s σ).mem = mem') ∧
      ∀ j q' σ, q = j :: q' → Obeys fp.machine shared q' j [] s' σ 0 → ∃ τ,
        Obeys fp.machine shared q i [] s τ 0 ∧
          Interleaving.run fp.machine s τ = Interleaving.run fp.machine s' σ := by
  induction h generalizing s with
  | @exit regs regs' mem hfetch =>
    subst hmem
    obtain ⟨hstep, hexits⟩ := step_trap fp hregs hfetch
    have hafter : (Interleaving.step fp.machine s i).mem = s.mem := by rw [hstep]
    refine ⟨Interleaving.step fp.machine s i, hafter, fun k hk => step_regs_of_ne fp.machine s hk, ?_, ?_⟩
    · rintro rfl
      exact ⟨[i], .last hexits, hafter⟩
    · rintro j q' σ rfl hσ
      exact ⟨i :: σ, .exit hexits hσ, rfl⟩
  | @step regs regs₁ regs' mem mem₁ mem' touched w hfetch _ ih =>
    subst hmem
    obtain ⟨hstep, hexits⟩ := step_exec fp hregs hfetch
    have hregs₁ : (Interleaving.step fp.machine s i).regs i = some regs₁ := by
      rw [hstep]
      exact Function.update_self i (some regs₁) s.regs
    have hmem₁ : (Interleaving.step fp.machine s i).mem = mem₁ := by rw [hstep]
    obtain ⟨s', hs', hothers, hlast, hnext⟩ := ih hregs₁ hmem₁
    refine ⟨s', hs', fun k hk => ?_, fun hq => ?_, fun j q' σ hq hσ => ?_⟩
    · rw [hothers k hk]
      exact step_regs_of_ne fp.machine s hk
    · obtain ⟨σ, hσ, hrun⟩ := hlast hq
      exact ⟨i :: σ, .quiet hexits (.inl rfl) hσ, hrun⟩
    · obtain ⟨τ, hτ, hrun⟩ := hnext j q' σ hq hσ
      exact ⟨i :: τ, .quiet hexits (.inl rfl) hτ, hrun⟩

end Serial

section Orders
variable {u : Setup} {b : Checker (List ℕ)} {D : Set Addr} {call : Word → Word → Mem → Mem}
  {s : Config ℕ (Option Regs) Addr (BitVec 8)} {i : ℕ} {q order τ : List ℕ} {executables : List FunctionExec}
  {mem mem' : Mem} {cs : Set (Word × Word)} {ths : Set ℕ} {scratch : Set Addr}

/-- What the function of a thread does to memory. -/
def called (call : Word → Word → Mem → Mem) (b : Checker (List ℕ)) (mem : Mem) (th : ℕ) : Mem :=
  call (b.threads th).fn (b.threads th).args mem

/-- The functions of the threads, one after another. -/
theorem exists_serial (fp : Footprints u.platform) (hp : Realises u.platform cs ths scratch call)
    (shared : Set Addr) (hstarts : ∀ th ∈ i :: q, Starts u.platform cs ths th (b.threads th))
    (hregs : ∀ th ∈ i :: q, s.regs th = some (equiv_regs_init u.platform (b.threads th)))
    (hnodup : (i :: q).Nodup) (hmem : Set.EqOn s.mem mem scratchᶜ) : ∃ τ,
      Obeys fp.machine shared q i [] s τ 0 ∧ Set.EqOn (Interleaving.run fp.machine s τ).mem
        ((i :: q).foldl (called call b) mem) scratchᶜ := by
  induction q generalizing i s mem with
  | nil =>
    obtain ⟨regs, mem₁, hexits, -, hcall⟩ := hp.runs i _ (hstarts i List.mem_cons_self) s.mem mem hmem
    obtain ⟨-, -, -, hlast, -⟩ :=
      exists_obeys_exit fp shared (q := []) hexits (hregs i List.mem_cons_self) rfl
    obtain ⟨τ, hτ, hrun⟩ := hlast rfl
    exact ⟨τ, hτ, hrun ▸ hcall⟩
  | cons j q ih =>
    obtain ⟨hi, hrest⟩ := List.nodup_cons.mp hnodup
    obtain ⟨regs, mem₁, hexits, -, hcall⟩ := hp.runs i _ (hstarts i List.mem_cons_self) s.mem mem hmem
    obtain ⟨s', hmem', hothers, -, hnext⟩ :=
      exists_obeys_exit fp shared (q := j :: q) hexits (hregs i List.mem_cons_self) rfl
    have hregs' : ∀ th ∈ j :: q, s'.regs th = some (equiv_regs_init u.platform (b.threads th)) := by
      intro th hth
      rw [hothers th fun heq => hi (heq ▸ hth)]
      exact hregs th (List.mem_cons_of_mem i hth)
    obtain ⟨σ, hσ, hrun⟩ :=
      ih (fun th hth => hstarts th (List.mem_cons_of_mem i hth)) hregs' hrest (hmem' ▸ hcall)
    obtain ⟨τ, hτ, hrun'⟩ := hnext j q σ rfl hσ
    refine ⟨τ, hτ, ?_⟩
    rw [hrun']
    exact hrun

theorem launch_regs {th : ℕ} (hth : th ∈ u.threads) :
    (launch u b).regs th = some (equiv_regs_init u.platform (b.threads th)) := if_pos hth

theorem Explorable.starts (h : Explorable u b D) (fp : Footprints u.platform)
    (hτ : Complete fp.machine (launch u b) τ) : ∃ i τ', τ = i :: τ' ∧ i ∈ u.threads := by
  cases τ with
  | nil =>
    have hlength : 0 < u.threads.length := Nat.lt_of_lt_of_le Nat.zero_lt_two h.functions
    have halive := (alive_launch (s := b) fp _).mpr (List.getElem_mem hlength)
    cases halive.symm.trans (hτ.2 _)
  | cons i τ' => exact ⟨i, τ', rfl, (alive_launch fp i).mp hτ.1.1⟩

section Serial
variable (h : Explorable u b D) (fp : Footprints u.platform) (hp : Realises u.platform cs ths scratch call)
  (hstarts : ∀ th ∈ u.threads, Starts u.platform cs ths th (b.threads th))

include h hp hstarts

theorem Explorable.exists_serial (horder : order.Perm u.threads) : ∃ τ,
      Complete fp.machine (launch u b) τ ∧ preemptions (trace fp.machine (launch u b) τ) = 0 ∧
      Set.EqOn (Interleaving.run fp.machine (launch u b) τ).mem
        (order.foldl (called call b) (u.init b.mem)) scratchᶜ := by
  have hnodup : order.Nodup := horder.nodup_iff.mpr h.built.nodup
  cases order with
  | nil =>
    have hlength : 2 ≤ ([] : List ℕ).length := h.functions.trans_eq horder.length_eq.symm
    cases hlength
  | cons i q =>
    obtain ⟨τ, hτ, hmem⟩ := RunInterleaving.exists_serial (s := launch u b) fp hp ∅
      (fun th hth => hstarts th (horder.mem_iff.mp hth))
      (fun th hth => launch_regs (horder.mem_iff.mp hth)) hnodup (Set.eqOn_refl _ _)
    exact ⟨τ, hτ.complete hnodup ((alive_launch fp).perm horder.symm), hτ.preemptions hnodup, hmem⟩

/-- And these are all interleavings without preemptions. -/
theorem Explorable.serial_mem (hτ : Complete fp.machine (launch u b) τ)
    (hpre : preemptions (trace fp.machine (launch u b) τ) = 0) : ∃ order : List ℕ, order.Perm u.threads ∧
      Set.EqOn (Interleaving.run fp.machine (launch u b) τ).mem
        (order.foldl (called call b) (u.init b.mem)) scratchᶜ := by
  obtain ⟨i, τ', rfl, hi⟩ := h.starts fp hτ
  obtain ⟨l, r, hthreads⟩ := List.append_of_mem hi
  have hperm : u.threads.Perm (i :: (l ++ r)) := hthreads ▸ List.perm_middle
  have hnodup := hperm.nodup_iff.mp h.built.nodup
  obtain ⟨q, hq, hobeys⟩ : ∃ q, q.Perm (l ++ r) ∧ Obeys fp.machine ∅ q i [] (launch u b) (i :: τ') 0 :=
    exists_queue hτ ((alive_launch fp).perm hperm) hnodup hpre
  have horder : (i :: q).Perm u.threads := (hq.cons i).trans hperm.symm
  obtain ⟨σ, hσ, hmem⟩ := RunInterleaving.exists_serial (s := launch u b) fp hp ∅
    (fun th hth => hstarts th (horder.mem_iff.mp hth))
    (fun th hth => launch_regs (horder.mem_iff.mp hth)) (horder.nodup_iff.mpr h.built.nodup)
    (Set.eqOn_refl _ _)
  obtain ⟨rfl, -⟩ := hobeys.unique hσ
  exact ⟨i :: q, horder, hmem⟩

end Serial

/-- Functions that start on memory that is the same where they may read. -/
theorem foldl_called_agree (hp : Realises u.platform cs ths scratch call) (hreads : u.platform.ReadsOnly D)
    (hstarts : ∀ th ∈ order, Starts u.platform cs ths th (b.threads th))
    (hmem : Set.EqOn mem' mem (D \ scratch)) :
    Set.EqOn (order.foldl (called call b) mem') (order.foldl (called call b) mem) (D \ scratch) := by
  induction order generalizing mem mem' with
  | nil => exact hmem
  | cons th order ih =>
    refine ih (fun x hx => hstarts x (List.mem_cons_of_mem th hx)) ?_
    exact realises_agree hp hreads (hstarts th List.mem_cons_self) hmem

/-- The threads hold the functions of the table. -/
def Holds (u : Setup) (b : Checker (List ℕ)) (executables : List FunctionExec) : Prop :=
  List.Forall₂ (fun e th => Forked u.platform e th (b.threads th)) executables u.threads

theorem Holds.starts (h : Holds u b executables) : ∀ th ∈ u.threads,
    Starts u.platform (threadCalls executables) {x | x ∈ u.threads} th (b.threads th) := by
  intro th hth
  obtain ⟨k, hk, rfl⟩ := List.getElem_of_mem hth
  have hlt : k < executables.length := (List.Forall₂.length_eq h) ▸ hk
  have hforked : Forked u.platform executables[k] _ (b.threads u.threads[k]) := List.Forall₂.get h hlt hk
  exact hforked.starts (List.getElem_mem hlt) hth

theorem Holds.map_range (h : Holds u b executables) :
    (List.range executables.length).map (u.threads.getD · 0) = u.threads := by
  have hlength : executables.length = u.threads.length := List.Forall₂.length_eq h
  refine List.ext_getElem (by simp [hlength]) fun k hk hk' => ?_
  simp [hk']

/-- A row of `find_good_hashes` is a serial execution of the threads. -/
theorem Holds.serial_eq (h : Holds u b executables) (horder : ∀ k ∈ order, k < executables.length) (mem : Mem) :
    serial call executables order mem = (order.map (u.threads.getD · 0)).foldl (called call b) mem := by
  rw [serial, List.foldl_map]
  refine List.foldl_ext _ _ _ fun m k hk => ?_
  have hlt := horder k hk
  have hlt' : k < u.threads.length := (List.Forall₂.length_eq h) ▸ hlt
  have hforked : Forked u.platform executables[k] u.threads[k] (b.threads u.threads[k]) :=
    List.Forall₂.get h hlt hlt'
  simp only [called, List.getD, List.getElem?_eq_getElem hlt, List.getElem?_eq_getElem hlt', Option.getD_some,
    hforked.fn, hforked.args]

end Orders

section Ends
variable {call : Word → Word → Mem → Mem} {init : Mem → Mem} {executables : List FunctionExec}
  {rows : List (List ℕ)} {order : List ℕ} {m : Mem}

theorem exists_of_mem_serialEnds {mem : Mem} (h : m ∈ serialEnds call init executables rows mem) :
    ∃ order ∈ rows, ∃ m₀, m = serial call executables order (init m₀) := by
  induction rows generalizing mem with
  | nil => cases h
  | cons row rows ih =>
    rcases List.mem_cons.mp h with rfl | h
    · exact ⟨row, List.mem_cons_self, mem, rfl⟩
    · obtain ⟨order, horder, hm⟩ := ih h
      exact ⟨order, List.mem_cons_of_mem row horder, hm⟩

theorem exists_mem_serialEnds (horder : order ∈ rows) (mem : Mem) :
    ∃ m₀, serial call executables order (init m₀) ∈ serialEnds call init executables rows mem := by
  induction rows generalizing mem with
  | nil => cases horder
  | cons row rows ih =>
    rcases List.mem_cons.mp horder with rfl | horder
    · exact ⟨mem, List.mem_cons_self⟩
    · obtain ⟨m₀, hm₀⟩ := ih horder _
      exact ⟨m₀, List.mem_cons_of_mem _ hm₀⟩

end Ends

end EquivChecker.RunInterleaving
