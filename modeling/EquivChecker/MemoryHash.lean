import EquivChecker.SetEnumeration
import EquivChecker.XXHash

/-!
# The hash of a memory state

`hash_mem` creates a state, updates it with one byte per member and digests it, but does
not reset the state first. `kmalloc` is not part of the repository; it returns memory
filled with 0, so the lanes start with 0.
-/

namespace EquivChecker.MemoryHash

open OwnedHeap SetTrie XXHash

section Code
variable (kmalloc : ℕ → List (BitVec 8))

/-- The pointer that is passed is the address `v` itself. -/
def hash_mem_value (mem : Mem) (v : Word) (arg : Except Fault XXH32_state) : Except Fault XXH32_state := do
  let state ← arg
  XXH32_update state v [mem v]

def hash_mem (set : Ptr) (mem : Mem) : SetM Word := do
  let (state, _) ← set_foreach_with (hash_mem_value mem) set (.ok (XXH32_createState kmalloc))
  match state with
  | .ok state => pure (XXH32_digest state)
  | .error fault => fail fault

end Code

/-- The lanes of a state that was not reset. -/
def unset : Lanes := fun _ => 0

variable {kmalloc : ℕ → List (BitVec 8)} {mem : Mem} {l : List Word} {state : XXH32_state}
  {s : SetHeap} {p : Ptr} {B : Set Word}

/-- The allocation of `kmalloc` makes a state whose lanes are 0. -/
theorem created (hzero : ∀ nbytes, kmalloc nbytes = List.replicate nbytes 0) :
    Absorbed unset [] (XXH32_createState kmalloc) := by
  have hread : ∀ k, XXH_readLE32 ((kmalloc state_size).drop k) = 0 := by
    intro k
    rw [hzero, List.drop_replicate]
    exact readLE32_replicate _
  refine ⟨hread 0, iff_of_false (not_not_intro (hread 4)) (by simp), funext fun i => hread _, hread 40,
    rfl, ?_⟩
  simp [XXH32_createState, hzero, state_size]

theorem foldl_updates (hl : 0 ∉ l) :
    l.foldl (fun arg v => hash_mem_value mem v arg) (.ok state) =
      .ok ((l.map mem).foldl (fun state b => update state [b]) state) := by
  induction l generalizing state with
  | nil => rfl
  | cons v l ih =>
    rw [List.mem_cons, not_or] at hl
    have hv : hash_mem_value mem v (.ok state) = .ok (update state [mem v]) := if_neg (Ne.symm hl.1)
    rw [List.foldl_cons, hv, ih hl.2, List.map_cons, List.foldl_cons]

theorem foldl_fault (fault : Fault) :
    l.foldl (fun arg v => hash_mem_value mem v arg) (.error fault) = .error fault := by
  induction l with
  | nil => rfl
  | cons v l ih => exact ih

/-- The address 0 is taken for a pointer that is NULL. -/
theorem foldl_null (hl : 0 ∈ l) :
    l.foldl (fun arg v => hash_mem_value mem v arg) (.ok state) = .error (.panic "len == 0") := by
  induction l generalizing state with
  | nil => cases hl
  | cons v l ih =>
    rw [List.foldl_cons]
    by_cases hv : v = 0
    · subst hv
      exact foldl_fault _
    · have hupdate : hash_mem_value mem v (.ok state) = .ok (update state [mem v]) := if_neg hv
      rw [hupdate]
      exact ih ((List.mem_cons.mp hl).resolve_left (Ne.symm hv))

theorem hash_mem_run (hzero : ∀ nbytes, kmalloc nbytes = List.replicate nbytes 0)
    (hl : Enumerates s p B l) (mem : Mem) : hash_mem kmalloc p mem s =
      if 0 ∈ l then .error (.panic "len == 0") else .ok (hashFrom unset (l.map mem), s) := by
  refine (run_bind (hl.foreach _ (hash_mem_value mem) _)).trans ?_
  by_cases hnull : 0 ∈ l
  · rw [if_pos hnull, foldl_null hnull]
    rfl
  · rw [if_neg hnull, foldl_updates hnull, ← (absorbed_foldl (created hzero) (l.map mem)).digest]
    rfl

/-- The hash that tells valid runs from invalid ones is the one whose lanes start with 0. -/
theorem hash_mem_eq_verdict (hzero : ∀ nbytes, kmalloc nbytes = List.replicate nbytes 0)
    (hl : Enumerates s p B l) (hnull : 0 ∉ l) (mem : Mem) :
    hash_mem kmalloc p mem s = Verdict.hash_mem (hashFrom unset) p mem s := by
  rw [hash_mem_run hzero hl, if_neg hnull, hl.hash_mem]

/-- Distinct addresses can hold any bytes. -/
theorem exists_map_eq (hl : l.Nodup) {bytes : List (BitVec 8)} (hlen : bytes.length = l.length) :
    ∃ mem : Mem, l.map mem = bytes := by
  refine ⟨fun a => bytes.getD (l.idxOf a) 0, List.ext_getElem (by simp [hlen]) fun i h₁ h₂ => ?_⟩
  rw [List.getElem_map, hl.idxOf_getElem, List.getD_eq_getElem _ _ h₂]

/-- Fewer than 16 bytes do not reach the lanes. -/
theorem hashFrom_short {input : List (BitVec 8)} (h : input.length < 16) :
    hashFrom unset input = XXH32 input 0 := by
  have hzero : input.length / 16 = 0 := Nat.div_eq_of_lt h
  have hseed : lanes 0 2 = unset 2 := rfl
  simp only [XXH32_eq, hashFrom, hzero, stripes, if_neg (Nat.not_le.mpr h), hseed]

/-- The hash of a set is that of the bytes at its members, whatever these are, just when the
address 0 is no member and there are fewer than 16 members. -/
theorem hash_mem_exact (hzero : ∀ nbytes, kmalloc nbytes = List.replicate nbytes 0)
    {cs : List SetCall} {S : SetState} {ptr : ℕ → Ptr} {z : ℕ}
    (hS : SetState.replay (fun _ _ => True) cs ⟨s, ptr, []⟩ = some S) (hz : z ∈ S.live) :
    ∃ l : List Word, l.Pairwise (· < ·) ∧
      (∀ v, v ∈ l ↔ v ∈ SetCall.meaningAll (fun _ => ∅) cs z) ∧
      ((∀ mem, hash_mem kmalloc (S.ptr z) mem S.heap = .ok (XXH32 (l.map mem) 0, S.heap)) ↔
        0 ∉ l ∧ l.length < 16) := by
  obtain ⟨l, hl⟩ := SetState.replay_enumerates hS hz
  refine ⟨l, hl.ascending, hl.members, fun hall => ?_, fun ⟨hnull, hlen⟩ mem => ?_⟩
  · have hnull : 0 ∉ l := by
      intro hmem
      have hrun := hall fun _ => 0
      rw [hash_mem_run hzero hl, if_pos hmem] at hrun
      cases hrun
    refine ⟨hnull, Nat.lt_of_not_le fun hlen => ?_⟩
    have hseed : unset 0 ≠ lanes 0 0 := by decide
    obtain ⟨bytes, hbytes, hne⟩ := exists_hashFrom_ne hseed hlen
    obtain ⟨mem, rfl⟩ := exists_map_eq (hl.ascending.imp BitVec.ne_of_lt) hbytes
    have hrun := hall mem
    rw [hash_mem_run hzero hl, if_neg hnull, XXH32_eq] at hrun
    exact hne (congrArg Prod.fst (Except.ok.inj hrun))
  · rw [hash_mem_run hzero hl, if_neg hnull, hashFrom_short (by simpa using hlen)]

/-- What `kmalloc` returns in the tests. -/
def zeroFilled (nbytes : ℕ) : List (BitVec 8) := List.replicate nbytes 0

/-- The set of the `n` bytes from an address on. -/
def bytesFrom (base : Word) (n : ℕ) : List SetCall := [.op (.alloc 0), .op (.add_mem 0 base n)]

theorem hash_mem_exact_four : ∃ (S : SetState) (l : List Word),
    SetState.replay (fun _ _ => True) (bytesFrom 1024 4)
      ⟨⟨fun _ => none, List.range' 4096 50 136⟩, fun _ => NULL, []⟩ = some S ∧
    l.Pairwise (· < ·) ∧ (∀ v, v ∈ l ↔ v ∈ SetCall.meaningAll (fun _ => ∅) (bytesFrom 1024 4) 0) ∧
    ((∀ mem, hash_mem zeroFilled (S.ptr 0) mem S.heap = .ok (XXH32 (l.map mem) 0, S.heap)) ↔
      0 ∉ l ∧ l.length < 16) := by
  have hrun : (SetState.replay (fun _ _ => True) (bytesFrom 1024 4)
      ⟨⟨fun _ => none, List.range' 4096 50 136⟩, fun _ => NULL, []⟩).map (fun S =>
        decide (0 ∈ S.live)) = some true := by
    decide +kernel
  obtain ⟨S, hS, hz⟩ := Option.map_eq_some_iff.mp hrun
  obtain ⟨l, hl⟩ := hash_mem_exact (fun _ => rfl) hS (of_decide_eq_true hz)
  exact ⟨S, l, hS, hl⟩

/-- 16 bytes of 0 are not hashed as `XXH32` hashes them. -/
theorem sixteen_bytes_misshashed : ∃ (S : SetState) (l : List Word),
    SetState.replay (fun _ _ => True) (bytesFrom 1024 16)
      ⟨⟨fun _ => none, List.range' 4096 50 136⟩, fun _ => NULL, []⟩ = some S ∧ 0 ∈ S.live ∧
    l.Pairwise (· < ·) ∧ (∀ v, v ∈ l ↔ v ∈ SetCall.meaningAll (fun _ => ∅) (bytesFrom 1024 16) 0) ∧
    hash_mem zeroFilled (S.ptr 0) (fun _ => 0) S.heap ≠ .ok (XXH32 (l.map fun _ => 0) 0, S.heap) := by
  have hrun : (SetState.replay (fun _ _ => True) (bytesFrom 1024 16)
      ⟨⟨fun _ => none, List.range' 4096 50 136⟩, fun _ => NULL, []⟩).map (fun S =>
        (decide (0 ∈ S.live), (hash_mem zeroFilled (S.ptr 0) (fun _ => 0) S.heap).toOption.map Prod.fst)) =
      some (true, some 1158985365#32) := by
    decide +kernel
  obtain ⟨S, hS, heq⟩ := Option.map_eq_some_iff.mp hrun
  obtain ⟨hz, hhash⟩ := Prod.mk.inj heq
  refine ⟨S, (List.range 16).map fun j => 1024#32 + BitVec.ofNat 32 j, hS, of_decide_eq_true hz,
    by decide, fun v => ?_, fun hsame => ?_⟩
  · simp [bytesFrom, SetCall.meaningAll, SetCall.meaning, SetOp.dst, SetOp.meaning, eq_comm]
  · rw [hsame] at hhash
    have hvalue : XXH32 (List.replicate 16 0) 0 = 1158985365#32 := Option.some.inj hhash
    revert hvalue
    decide +kernel

end EquivChecker.MemoryHash
