import EquivChecker.Interleaver
import EquivChecker.Permutations
import EquivChecker.SetForeach

/-!
# Valid end states and the verdict on a run

`find_good_hashes` runs the functions in every order and collects the hashes of the
shared memory. A run that made all its context switches is reported when the hash of its
end state is not among them. The hash of a byte string and what a call of a function with
an argument does to memory are parameters; what is printed does not change the sets.
-/

namespace EquivChecker.Verdict

open SetTrie OwnedHeap Permutations

section Code

variable (hash : List (BitVec 8) → Word) (call : Word → Word → Mem → Mem) (init : Mem → Mem)

def hash_mem (set : Ptr) (mem : Mem) : SetM Word := do
  let values ← set_foreach set
  pure (hash (values.map mem))

/-- `executables[k].func_addr(executables[k].var_list)` -/
def call_function (executables : List FunctionExec) (k : ℕ) (mem : Mem) : SetM Mem :=
  match executables[k]? with
  | none => fail .outOfBounds
  | some e => pure (call e.func_addr e.var_list mem)

/-- The calls of one row. -/
def run_row (executables : List FunctionExec) (row : ℕ → ℕ) (mem : Mem) : SetM Mem :=
  (List.range executables.length).foldlM (fun mem j => call_function call executables (row j) mem) mem

/-- The memory after the last call is returned. -/
def find_good_hashes (executables : List FunctionExec) (itl : ℕ → ℕ → ℕ) (n_perms : ℕ)
    (shared_memory valid_hashes : Ptr) (mem : Mem) : SetM Mem :=
  (List.range n_perms).foldlM (fun mem i => do
    let mem ← run_row call executables (itl i) (init mem)
    let h ← hash_mem hash shared_memory mem
    let _ ← set_insert levels valid_hashes h
    pure mem) mem

/-- The part of `equiv_checker_run` that computes the valid hashes. -/
def collect_hashes (executables : List FunctionExec) (shared_memory : Ptr) (mem : Mem) :
    SetM (Ptr × Mem) := do
  let itl := get_func_permutations executables.length
  let num_perms := (factorial executables.length).toNat
  let valid_hashes ← set_alloc
  let mem ← find_good_hashes hash call init executables itl num_perms shared_memory valid_hashes mem
  pure (valid_hashes, mem)

inductive Report
  | invalid
  | valid
  deriving DecidableEq, Repr

/-- What `run_interleavings` prints about the end state of a run. -/
def report (verbose ncs : ℕ) (valid_hashes shared_memory : Ptr) (run : Run) :
    SetM (Option Report) :=
  if run.status.yielded = false ∧ run.status.ctx_switch = ncs then do
    let h ← hash_mem hash shared_memory run.mem
    let found ← set_lookup levels valid_hashes h
    if found = 0 then pure (if 1 ≤ verbose then some .invalid else none)
    else pure (if 3 ≤ verbose then some .valid else none)
  else pure none

/-- The functions called one after another, with their own arguments. -/
def direct (executables : List FunctionExec) (order : List ℕ) (mem : Mem) : Mem :=
  order.foldl (fun mem k =>
    call (executables.getD k ⟨0, 0⟩).func_addr (executables.getD k ⟨0, 0⟩).var_list mem) mem

/-- The functions run one after another, with the argument NULL. -/
def serial (executables : List FunctionExec) (order : List ℕ) (mem : Mem) : Mem :=
  order.foldl (fun mem k => call (executables.getD k ⟨0, 0⟩).func_addr 0 mem) mem

/-- The memories after serial executions, each started by `init` where the last one ended. -/
def serialEnds (executables : List FunctionExec) : List (List ℕ) → Mem → List Mem
  | [], _ => []
  | order :: orders, mem =>
    let mem := serial call executables order (init mem)
    mem :: serialEnds executables orders mem

end Code

variable {hash : List (BitVec 8) → Word} {call : Word → Word → Mem → Mem} {init : Mem → Mem}
  {s t : SetHeap} {p shared_memory : Ptr} {F : Set Ptr} {members : List Word}
  {executables : List FunctionExec}

/-- The hash is computed from the bytes at the members, in ascending order. -/
theorem hash_mem_eq (ho : Owns s.nodes 6 p F) (hsorted : members.Pairwise (· < ·))
    (hmembers : ∀ a, Has s.nodes 6 p a ↔ a ∈ members) (mem : Mem) :
    hash_mem hash p mem s = .ok (hash (members.map mem), s) := by
  obtain ⟨l, hrun, hl, hmem⟩ := set_foreach_spec ho
  rw [hash_mem, run_bind hrun, ascending_unique hl hsorted fun v => (hmem v).trans (hmembers v)]
  rfl

theorem foldlM_eq {α β : Type} {f : β → α → SetM β} {g : β → α → β} (l : List α)
    (hf : ∀ a ∈ l, ∀ b, f b a s = .ok (g b a, s)) (b : β) : l.foldlM f b s = .ok (l.foldl g b, s) := by
  induction l generalizing b with
  | nil => rfl
  | cons a l ih =>
    rw [List.foldlM_cons, run_bind (hf a List.mem_cons_self b), List.foldl_cons]
    exact ih (fun a ha => hf a (List.mem_cons_of_mem _ ha)) _

theorem run_row_direct {row : ℕ → ℕ} (hrow : ∀ j < executables.length, row j < executables.length)
    (mem : Mem) : run_row call executables row mem s =
      .ok (direct call executables ((List.range executables.length).map row) mem, s) := by
  rw [direct, List.foldl_map]
  refine foldlM_eq _ (fun j hj mem => ?_) mem
  have hlt := hrow j (List.mem_range.mp hj)
  rw [call_function, List.getElem?_eq_getElem hlt]
  simp only [List.getD, List.getElem?_eq_getElem hlt, Option.getD_some]
  rfl

/-- Without arguments the direct calls are a serial execution. -/
theorem direct_eq_serial (hnull : ∀ e ∈ executables, e.var_list = 0) (order : List ℕ) (mem : Mem) :
    direct call executables order mem = serial call executables order mem := by
  have harg : ∀ k, (executables.getD k ⟨0, 0⟩).var_list = 0 := by
    intro k
    rw [List.getD]
    cases hk : executables[k]? with
    | none => rfl
    | some e => exact hnull e (List.mem_of_getElem? hk)
  simp only [direct, serial, harg]

theorem run_row_eq (hnull : ∀ e ∈ executables, e.var_list = 0) {row : ℕ → ℕ}
    (hrow : ∀ j < executables.length, row j < executables.length) (mem : Mem) :
    run_row call executables row mem s =
      .ok (serial call executables ((List.range executables.length).map row) mem, s) := by
  rw [run_row_direct hrow, direct_eq_serial hnull]

/-- The two sets that the verdict depends on. -/
inductive Table
  | shared_memory
  | valid_hashes
  deriving DecidableEq

def contents (members : List Word) (hashes : Set Word) : Table → Set Word
  | .shared_memory => {a | a ∈ members}
  | .valid_hashes => hashes

section Loop
variable {ptr : Table → Ptr} {V : Set Word} {F : Table → Set Ptr}

/-- One row: the hash of its end state is inserted. -/
theorem row_spec (hr : Represents s Set.univ ptr (contents members V) F)
    (hsorted : members.Pairwise (· < ·)) (hnull : ∀ e ∈ executables, e.var_list = 0) {row : ℕ → ℕ}
    (hrow : ∀ j < executables.length, row j < executables.length) (mem : Mem) :
    Ends (do
      let mem ← run_row call executables row (init mem)
      let h ← hash_mem hash (ptr .shared_memory) mem
      let _ ← set_insert levels (ptr .valid_hashes) h
      pure mem) (fun mem' t =>
        mem' = serial call executables ((List.range executables.length).map row) (init mem) ∧
        ∃ F', Represents t Set.univ ptr
          (contents members (insert (hash (members.map mem')) V)) F') s := by
  have hlive : ∀ x : Table, x ∈ Set.univ := Set.mem_univ
  refine Wp.of_run (run_row_eq hnull hrow (init mem)) ?_
  generalize serial call executables ((List.range executables.length).map row) (init mem) = mem'
  refine Wp.of_run (hash_mem_eq (hr.owns .shared_memory (hlive _)) hsorted
    (hr.members .shared_memory (hlive _)) mem') ?_
  refine (set_insert_spec (hr.owns .valid_hashes (hlive _)) (by decide) _).bind ?_
  rintro - t ⟨hb, -⟩
  obtain ⟨F', hr'⟩ := hr.change (B := insert (hash (members.map mem')) V) (hlive _) hb fun a => by
    rw [hr.members .valid_hashes (hlive _), agree_top, or_comm]
    rfl
  refine Wp.pure_iff.mpr ⟨rfl, F', hr'.congr (fun _ _ => rfl) fun x _ => ?_⟩
  cases x <;> rfl

/-- The hashes of the end states. -/
def hashes (hash : List (BitVec 8) → Word) (members : List Word) (ends : List Mem) : Set Word :=
  {h | ∃ m ∈ ends, h = hash (members.map m)}

theorem find_good_hashes_loop (hr : Represents s Set.univ ptr (contents members V) F)
    (hsorted : members.Pairwise (· < ·)) (hnull : ∀ e ∈ executables, e.var_list = 0)
    (itl : ℕ → ℕ → ℕ) (k i : ℕ)
    (hrows : ∀ r, r < i + k → ∀ j < executables.length, itl r j < executables.length) (mem : Mem) :
    Ends ((List.range' i k).foldlM (fun mem i => do
      let mem ← run_row call executables (itl i) (init mem)
      let h ← hash_mem hash (ptr .shared_memory) mem
      let _ ← set_insert levels (ptr .valid_hashes) h
      pure mem) mem) (fun _ t => ∃ F', Represents t Set.univ ptr (contents members (V ∪
        hashes hash members (serialEnds call init executables
          (rows itl i k executables.length) mem))) F') s := by
  induction k generalizing s V F i mem with
  | zero =>
    refine Wp.pure_iff.mpr ⟨F, hr.congr (fun _ _ => rfl) fun x _ => ?_⟩
    simp [rows, serialEnds, hashes]
  | succ k ih =>
    rw [List.range'_succ, List.foldlM_cons]
    refine (row_spec hr hsorted hnull (hrows i (by omega)) mem).bind ?_
    rintro mem' t ⟨rfl, F', hr'⟩
    refine (ih hr' (i + 1) (fun r hr => hrows r (by omega)) _).mono ?_
    rintro - u ⟨F'', hr''⟩
    refine ⟨F'', hr''.congr (fun _ _ => rfl) fun x _ => ?_⟩
    cases x with
    | shared_memory => rfl
    | valid_hashes =>
      ext h
      simp only [contents, rows, List.range'_succ, List.map_cons, serialEnds, hashes, List.mem_cons,
        Set.mem_union, Set.mem_insert_iff, Set.mem_ofPred_eq, exists_eq_or_imp]
      tauto

end Loop

/-- The orders in which `find_good_hashes` runs `n` functions. -/
def orders (n : ℕ) : List (List ℕ) := rows (get_func_permutations n) 0 n.factorial n

theorem orders_perm {n : ℕ} (hn : 0 < n) : (orders n).Perm (List.range n).permutations := by
  obtain ⟨n, rfl⟩ : ∃ m, n = m + 1 := ⟨n - 1, by omega⟩
  exact find_permutations_perm _ n

theorem get_func_permutations_lt {n r j : ℕ} (hn : 0 < n) (hr : r < n.factorial) (hj : j < n) :
    get_func_permutations n r j < n := by
  have hrow : (List.range n).map (get_func_permutations n r) ∈ orders n :=
    List.mem_map.mpr ⟨r, List.mem_range'_1.mpr ⟨by omega, by omega⟩, rfl⟩
  have hperm := List.mem_permutations.mp ((orders_perm hn).mem_iff.mp hrow)
  have hmem := hperm.mem_iff.mp (List.mem_map_of_mem (List.mem_range.mpr hj))
  exact List.mem_range.mp hmem

theorem collect_hashes_spec (ho : Owns s.nodes 6 shared_memory F)
    (hsorted : members.Pairwise (· < ·)) (hmembers : ∀ a, Has s.nodes 6 shared_memory a ↔ a ∈ members)
    (hn : 0 < executables.length) (hfact : executables.length.factorial < 2 ^ 31)
    (hnull : ∀ e ∈ executables, e.var_list = 0) (mem : Mem) :
    Ends (collect_hashes hash call init executables shared_memory mem) (fun r t => ∃ ptr F',
      ptr .shared_memory = shared_memory ∧ ptr .valid_hashes = r.1 ∧
      Represents t Set.univ ptr (contents members (hashes hash members
        (serialEnds call init executables (orders executables.length) mem))) F') s := by
  have hshared := (represents_empty s (fun _ : Table => shared_memory) (contents members ∅)).assign
    (z := .shared_memory) (B := {a | a ∈ members}) (Moves.refl s.nodes F)
    (fun x hx => absurd hx (Set.notMem_empty x)) ho hmembers
  refine (hshared.alloc .valid_hashes).bind ?_
  rintro p t ⟨F₁, hr₁⟩
  generalize hptr : Function.update (Function.update (fun _ : Table => shared_memory) .shared_memory
    shared_memory) .valid_hashes p = ptr at hr₁
  have hs : ptr .shared_memory = shared_memory := by simp [← hptr]
  have hv : ptr .valid_hashes = p := by simp [← hptr]
  have hr : Represents t Set.univ ptr (contents members ∅) F₁ := by
    refine (hr₁.mono fun x _ => ?_).congr (fun _ _ => rfl) fun x _ => ?_
    · cases x <;> simp
    · cases x <;> simp [contents]
  have hrows : ∀ r, r < 0 + (factorial executables.length).toNat → ∀ j < executables.length,
      get_func_permutations executables.length r j < executables.length := by
    intro r hlt j hj
    rw [factorial_toNat hfact, Nat.zero_add] at hlt
    exact get_func_permutations_lt hn hlt hj
  have hloop := @find_good_hashes_loop hash call init t members executables ptr ∅ F₁ hr hsorted hnull
    _ _ 0 hrows mem
  rw [← List.range_eq_range', factorial_toNat hfact, hs, hv, Set.empty_union] at hloop
  refine Wp.bind (R := fun _ u => ∃ F', Represents u Set.univ ptr (contents members
    (hashes hash members (serialEnds call init executables (orders executables.length) mem))) F') ?_ ?_
  · rw [factorial_toNat hfact]
    exact hloop
  · rintro m u ⟨F₂, hr₂⟩
    exact Wp.pure_iff.mpr ⟨ptr, F₂, hs, hv, hr₂⟩

/-- The nodes of the set are as they were. -/
def Unchanged (t u : SetHeap) (p : Ptr) : Prop :=
  ∀ F, Owns t.nodes 6 p F → ∀ q ∈ F, u.nodes q = t.nodes q

theorem report_lookup {ptr : Table → Ptr} {F : Table → Set Ptr} {ends : List Mem} {u : SetHeap}
    (hr : Represents t Set.univ ptr (contents members (hashes hash members ends)) F)
    (hsorted : members.Pairwise (· < ·)) (hu : ∀ x, Unchanged t u (ptr x)) (verbose : ℕ)
    {ncs : ℕ} {run : Run} (hyielded : run.status.yielded = false) (hswitch : run.status.ctx_switch = ncs) :
    ∃ result, report hash verbose ncs (ptr .valid_hashes) (ptr .shared_memory) run u = .ok (result, u) ∧
      (result = some .invalid ↔
        1 ≤ verbose ∧ hash (members.map run.mem) ∉ hashes hash members ends) := by
  have hlive : ∀ x : Table, x ∈ Set.univ := Set.mem_univ
  have hown : ∀ x, Owns u.nodes 6 (ptr x) (F x) := fun x =>
    (hr.owns x (hlive x)).congr (hu x _ (hr.owns x (hlive x)))
  have hmem : ∀ x v, Has u.nodes 6 (ptr x) v ↔ v ∈ contents members (hashes hash members ends) x :=
    fun x v => ((hr.owns x (hlive x)).has_congr (hu x _ (hr.owns x (hlive x))) v).trans
      (hr.members x (hlive x) v)
  obtain ⟨r, hlookup, hin, hout⟩ := set_lookup_spec (hown .valid_hashes) (show 6 < levels by decide)
    (hash (members.map run.mem))
  rw [hmem] at hin hout
  have hrun : report hash verbose ncs (ptr .valid_hashes) (ptr .shared_memory) run u =
      (if r = 0 then pure (if 1 ≤ verbose then some .invalid else none)
        else pure (if 3 ≤ verbose then some .valid else none) : SetM (Option Report)) u := by
    rw [report, if_pos ⟨hyielded, hswitch⟩,
      run_bind (hash_mem_eq (hown .shared_memory) hsorted (hmem .shared_memory) run.mem), run_bind hlookup]
  rw [hrun]
  by_cases hknown : hash (members.map run.mem) ∈ hashes hash members ends
  · rw [hin hknown]
    refine ⟨_, rfl, ?_⟩
    split <;> simp [hknown]
  · rw [hout hknown, if_pos rfl]
    refine ⟨_, rfl, ?_⟩
    split <;> simp [*]

theorem report_spec {ptr : Table → Ptr} {F : Table → Set Ptr} {ends : List Mem} {u : SetHeap}
    (hr : Represents t Set.univ ptr (contents members (hashes hash members ends)) F)
    (hsorted : members.Pairwise (· < ·)) (hu : ∀ x, Unchanged t u (ptr x)) {verbose ncs : ℕ}
    (hverbose : 1 ≤ verbose) {run : Run} (hyielded : run.status.yielded = false)
    (hswitch : run.status.ctx_switch = ncs)
    (hash_inj : Set.InjOn hash {b | ∃ m ∈ run.mem :: ends, b = members.map m}) :
    ∃ result, report hash verbose ncs (ptr .valid_hashes) (ptr .shared_memory) run u = .ok (result, u) ∧
      (result = some .invalid ↔ ∀ m ∈ ends, ∃ a ∈ members, run.mem a ≠ m a) := by
  -- by collision freedom the hash is known exactly when the bytes are
  have hknown : hash (members.map run.mem) ∈ hashes hash members ends ↔
      ∃ m ∈ ends, ∀ a ∈ members, run.mem a = m a := by
    constructor
    · rintro ⟨m, hm, heq⟩
      have hbytes := hash_inj ⟨run.mem, List.mem_cons_self, rfl⟩ ⟨m, List.mem_cons_of_mem _ hm, rfl⟩ heq
      exact ⟨m, hm, List.map_inj_left.mp hbytes⟩
    · rintro ⟨m, hm, heq⟩
      exact ⟨m, hm, by rw [List.map_congr_left heq]⟩
  obtain ⟨result, hrun, hresult⟩ := report_lookup hr hsorted hu verbose hyielded hswitch
  refine ⟨result, hrun, ?_⟩
  rw [hresult, hknown, and_iff_right hverbose]
  push Not
  rfl

/-- A run that made all its context switches is reported as invalid if and only if its end
state differs, at the members of the shared memory, from the end states of all serial
executions. -/
theorem report_invalid_iff (ho : Owns s.nodes 6 shared_memory F)
    (hsorted : members.Pairwise (· < ·)) (hmembers : ∀ a, Has s.nodes 6 shared_memory a ↔ a ∈ members)
    (hn : 0 < executables.length) (hfact : executables.length.factorial < 2 ^ 31)
    (hnull : ∀ e ∈ executables, e.var_list = 0) (mem : Mem) {verbose : ℕ} (hverbose : 1 ≤ verbose) :
    (orders executables.length).Perm (List.range executables.length).permutations ∧
    Ends (collect_hashes hash call init executables shared_memory mem) (fun r t =>
      ∀ u, Unchanged t u shared_memory → Unchanged t u r.1 → ∀ (ncs : ℕ) (run : Run),
        run.status.yielded = false → run.status.ctx_switch = ncs →
        Set.InjOn hash {b | ∃ m ∈ run.mem ::
          serialEnds call init executables (orders executables.length) mem, b = members.map m} →
        ∃ result, report hash verbose ncs r.1 shared_memory run u = .ok (result, u) ∧
          (result = some .invalid ↔
            ∀ m ∈ serialEnds call init executables (orders executables.length) mem,
              ∃ a ∈ members, run.mem a ≠ m a)) s := by
  refine ⟨orders_perm hn, (collect_hashes_spec ho hsorted hmembers hn hfact hnull mem).mono ?_⟩
  rintro r t ⟨ptr, F', rfl, hvalid, hr⟩ u hshared hvalid' ncs run hyielded hswitch hinj
  rw [← hvalid] at hvalid' ⊢
  refine report_spec hr hsorted (fun x => ?_) hverbose hyielded hswitch hinj
  cases x with
  | shared_memory => exact hshared
  | valid_hashes => exact hvalid'

section Lost

/-- The set with the member 4096. -/
def single : SetHeap :=
  match set_insert levels 1 4096 oneSet with
  | .ok (_, t) => t
  | .error _ => oneSet

theorem single_spec : ∃ F, Owns single.nodes 6 1 F ∧ ∀ a, Has single.nodes 6 1 a ↔ a ∈ [(4096 : Word)] := by
  have hends := fun v hok => Wp.of_isOk (set_insert_spec owns_oneSet (show 6 < levels by decide) v) hok
  obtain ⟨r, t, hrun, ⟨F, hown, -, hhas⟩, -⟩ := hends 4096 (by decide +kernel)
  have ht : single = t := by rw [single, hrun]
  rw [ht]
  refine ⟨F, hown, fun a => (hhas a).trans ?_⟩
  rw [List.mem_singleton]
  exact (or_iff_right (not_has_oneSet a)).trans agree_top

/-- Two functions that store their number, and a run in which neither number was left. -/
theorem report_invalid_iff_lost :
    let hash := fun bytes : List (BitVec 8) => (bytes.headD 0).setWidth 32
    let call := fun f _ (mem : Mem) => Function.update mem 4096 (BitVec.setWidth 8 f)
    ∃ r t, collect_hashes hash call id [⟨1, 0⟩, ⟨2, 0⟩] 1 (fun _ => 0) single = .ok (r, t) ∧
      report hash 1 1 r.1 1 ⟨[1, 2], [1], ⟨1, 0, false, false⟩, fun _ => 3⟩ t =
        .ok (some .invalid, t) := by
  intro hash call
  obtain ⟨F, hown, hmem⟩ := single_spec
  have hends := fun (executables : List FunctionExec) hn hfact hnull hok =>
    have hspec : _ ∧ Ends (collect_hashes hash call id executables 1 (fun _ => 0)) _ single :=
      report_invalid_iff hown (List.pairwise_singleton _ _) hmem hn hfact hnull (fun _ => 0) (le_refl 1)
    Wp.of_isOk hspec.2 hok
  obtain ⟨r, t, hrun, hreport⟩ := hends [⟨1, 0⟩, ⟨2, 0⟩] (by decide) (by decide) (by decide)
    (by decide +kernel)
  have hinj : ∀ ms : List Mem, Set.InjOn hash {b | ∃ m ∈ ms, b = [(4096 : Word)].map m} := by
    rintro ms b ⟨m, -, rfl⟩ b' ⟨m', -, rfl⟩ heq
    have hbyte := congrArg (BitVec.setWidth 8) heq
    simpa [hash] using hbyte
  obtain ⟨result, hres, hiff⟩ := hreport t (fun _ _ _ _ => rfl) (fun _ _ _ _ => rfl) 1
    ⟨[1, 2], [1], ⟨1, 0, false, false⟩, fun _ => 3⟩ rfl rfl (hinj _)
  refine ⟨r, t, hrun, ?_⟩
  rw [hres, hiff.mpr ?_]
  have horders : orders 2 = [[0, 1], [1, 0]] := by decide
  intro m hm
  refine ⟨4096, List.mem_cons_self, ?_⟩
  change m ∈ serialEnds call id [⟨1, 0⟩, ⟨2, 0⟩] (orders 2) _ at hm
  rw [horders] at hm
  rcases List.mem_pair.mp hm with rfl | rfl
  · decide
  · decide

end Lost

end EquivChecker.Verdict
