import EquivChecker.SetRefinement

/-!
# Sessions with sets

Programs call the operations on sets, and free them. What is live at any time is a
family of sets that own disjoint parts of the heap.
-/

namespace EquivChecker.SetTrie

open OwnedHeap

/-- A heap, the variables that point to sets, and those of them that are live. -/
structure SetState where
  heap : SetHeap
  ptr : ℕ → Ptr
  live : List ℕ

inductive SetCall
  | op (o : SetOp)
  | free (z : ℕ)

namespace SetCall

def exec (ptr : ℕ → Ptr) : SetCall → SetM (ℕ → Ptr)
  | op o => o.exec ptr
  | free z => do
    set_free levels (ptr z)
    pure ptr

def Legal (live : List ℕ) : SetCall → Prop
  | op o => o.Legal live
  | free z => z ∈ live

instance (live : List ℕ) : (c : SetCall) → Decidable (c.Legal live)
  | op o => inferInstanceAs (Decidable (o.Legal live))
  | free z => inferInstanceAs (Decidable (z ∈ live))

def relive (live : List ℕ) : SetCall → List ℕ
  | op o => o.dst :: live
  | free z => live.filter (· ≠ z)

/-- What the call means for sets: the contents of the variables after it. -/
def meaning (A : ℕ → Set Word) : SetCall → ℕ → Set Word
  | op o => Function.update A o.dst (o.meaning A)
  | free _ => A

def meaningAll (A : ℕ → Set Word) : List SetCall → ℕ → Set Word
  | [] => A
  | c :: cs => meaningAll (c.meaning A) cs

def Tidy (s : SetHeap) (ptr : ℕ → Ptr) : SetCall → Prop
  | op o => o.Tidy s ptr
  | free _ => True

variable {s : SetHeap} {live : List ℕ} {ptr : ℕ → Ptr} {A : ℕ → Set Word} {F : ℕ → Set Ptr} {c : SetCall}

theorem exec_effect (hr : Represents s {x | x ∈ live} ptr A F) (hlegal : c.Legal live) :
    Ends (c.exec ptr) (fun ptr' t =>
      (∃ F', Represents t {x | x ∈ c.relive live} ptr' (c.meaning A) F') ∧
      ((∀ x ∈ live, Tight s.nodes 6 (ptr x)) → c.Tidy s ptr →
        ∀ x ∈ c.relive live, Tight t.nodes 6 (ptr' x))) s := by
  cases c with
  | op o => exact o.exec_effect hr hlegal
  | free z =>
    have hsub : ∀ x ∈ live.filter (· ≠ z), x ∈ {x | x ∈ live} \ {z} := by
      intro x hx
      obtain ⟨hx, hne⟩ := List.mem_filter.mp hx
      exact ⟨hx, by simpa using hne⟩
    refine (set_free_spec (hr.owns z hlegal) (show 6 < levels by decide)).bind fun _ t hm => ?_
    refine Wp.pure_iff.mpr ⟨⟨F, (hr.free hlegal hm).mono hsub⟩, fun ht _ x hx => ?_⟩
    have hothers := hr.mono (Set.sdiff_subset (t := {z}))
    exact hothers.tight_frame (fun y hy => ht y hy.1) hm
      (fun y hy => hr.disjoint z hlegal y hy.1 fun h => hy.2 h.symm) x (hsub x hx)

theorem exec_spec (hr : Represents s {x | x ∈ live} ptr A F) (hlegal : c.Legal live) :
    Ends (c.exec ptr) (fun ptr' t => ∃ F', Represents t {x | x ∈ c.relive live} ptr' (c.meaning A) F') s :=
  (exec_effect hr hlegal).mono fun _ _ h => h.1

end SetCall

namespace SetState

def step (S : SetState) (c : SetCall) : Except Fault SetState :=
  match c.exec S.ptr S.heap with
  | .ok (ptr, s) => .ok ⟨s, ptr, c.relive S.live⟩
  | .error e => .error e

/-- The states that legal calls lead to, each of them meeting a condition. -/
inductive Reaches (ok : SetState → SetCall → Prop) (S₀ : SetState) : SetState → Prop
  | start : Reaches ok S₀ S₀
  | step {S T : SetState} {c : SetCall} (h : Reaches ok S₀ S) (hlegal : c.Legal S.live) (hok : ok S c)
      (hstep : S.step c = .ok T) : Reaches ok S₀ T

/-- The state that calls lead to, none if one of them is not legal or does not meet the condition. -/
def replay (ok : SetState → SetCall → Prop) [∀ S c, Decidable (ok S c)] :
    List SetCall → SetState → Option SetState
  | [], S => some S
  | c :: cs, S =>
    if c.Legal S.live ∧ ok S c then
      match S.step c with
      | .ok T => replay ok cs T
      | .error _ => none
    else none

variable {ok : SetState → SetCall → Prop} {S₀ S T : SetState}

theorem replay_cons [∀ S c, Decidable (ok S c)] {c : SetCall} {cs : List SetCall}
    (hrun : replay ok (c :: cs) S = some T) :
    c.Legal S.live ∧ ok S c ∧ ∃ U, S.step c = .ok U ∧ replay ok cs U = some T := by
  rw [replay] at hrun
  split at hrun
  · rename_i hcond
    split at hrun
    · rename_i U hstep
      exact ⟨hcond.1, hcond.2, U, hstep, hrun⟩
    · cases hrun
  · cases hrun

theorem Reaches.replay [∀ S c, Decidable (ok S c)] {cs : List SetCall} (hS : Reaches ok S₀ S)
    (hrun : SetState.replay ok cs S = some T) : Reaches ok S₀ T := by
  induction cs generalizing S with
  | nil =>
    cases hrun
    exact hS
  | cons c cs ih =>
    obtain ⟨hlegal, hok, U, hstep, hrun⟩ := replay_cons hrun
    exact ih (hS.step hlegal hok hstep) hrun

theorem step_ok {c : SetCall} (hstep : S.step c = .ok T) :
    ∃ ptr s, c.exec S.ptr S.heap = .ok (ptr, s) ∧ T = ⟨s, ptr, c.relive S.live⟩ := by
  unfold step at hstep
  split at hstep
  · rename_i ptr s hexec
    cases hstep
    exact ⟨ptr, s, hexec, rfl⟩
  · cases hstep

theorem represents_replay [∀ S c, Decidable (ok S c)] {cs : List SetCall} {A : ℕ → Set Word}
    {F : ℕ → Set Ptr} (hr : Represents S.heap {x | x ∈ S.live} S.ptr A F)
    (hrun : SetState.replay ok cs S = some T) :
    ∃ F', Represents T.heap {x | x ∈ T.live} T.ptr (SetCall.meaningAll A cs) F' := by
  induction cs generalizing S A F with
  | nil =>
    cases hrun
    exact ⟨F, hr⟩
  | cons c cs ih =>
    obtain ⟨hlegal, -, U, hstep, hrun⟩ := replay_cons hrun
    obtain ⟨ptr, s, hexec, rfl⟩ := step_ok hstep
    obtain ⟨F', hr'⟩ := (SetCall.exec_spec hr hlegal).of_ok hexec
    exact ih hr' hrun

/-- The live sets are a family. -/
def Sound (S : SetState) : Prop :=
  ∃ A F, Represents S.heap {x | x ∈ S.live} S.ptr A F

theorem Sound.exec (hS : S.Sound) {c : SetCall} (hlegal : c.Legal S.live) :
    Ends (c.exec S.ptr) (fun ptr t => Sound ⟨t, ptr, c.relive S.live⟩) S.heap := by
  obtain ⟨A, F, hr⟩ := hS
  refine (SetCall.exec_spec hr hlegal).mono ?_
  rintro ptr t ⟨F', hr'⟩
  exact ⟨_, F', hr'⟩

theorem reaches_sound {s : SetHeap} {ptr : ℕ → Ptr} (hS : Reaches ok ⟨s, ptr, []⟩ S) : S.Sound := by
  induction hS with
  | start =>
    exact ⟨fun _ => ∅, _, represents_nil s ptr _⟩
  | step _ hlegal _ hstep ih =>
    obtain ⟨ptr, s, hexec, rfl⟩ := step_ok hstep
    exact (ih.exec hlegal).of_ok hexec

end SetState

end EquivChecker.SetTrie
