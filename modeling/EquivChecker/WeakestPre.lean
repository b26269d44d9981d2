import Mathlib.Data.List.Basic

/-!
# Postconditions of stateful programs that may fail

`Wp allowed m Q s`: from state `s` the program `m` ends in a result and state that
satisfy `Q`, or fails with one of the allowed failures.
-/

namespace EquivChecker

variable {σ ε α β : Type} {allowed : ε → Prop}

def Wp (allowed : ε → Prop) (m : StateT σ (Except ε) α) (Q : α → σ → Prop) (s : σ) : Prop :=
  match m s with
  | .ok (a, s') => Q a s'
  | .error e => allowed e

/-- The rest of a program runs from where its first part ends. -/
theorem run_bind {m : StateT σ (Except ε) α} {f : α → StateT σ (Except ε) β} {s s' : σ} {a : α}
    (h : m s = .ok (a, s')) : (m >>= f) s = f a s' := by
  change (m s >>= fun r => f r.1 r.2) = f a s'
  rw [h]
  rfl

namespace Wp

theorem mono {m : StateT σ (Except ε) α} {Q Q' : α → σ → Prop} {s : σ} (h : Wp allowed m Q s)
    (hQ : ∀ a s', Q a s' → Q' a s') : Wp allowed m Q' s := by
  unfold Wp at h ⊢
  cases hm : m s with
  | ok r =>
    rw [hm] at h
    exact hQ _ _ h
  | error e =>
    rw [hm] at h
    exact h

@[simp] theorem pure_iff {a : α} {Q : α → σ → Prop} {s : σ} :
    Wp allowed (pure a) Q s ↔ Q a s := Iff.rfl

theorem bind_iff {m : StateT σ (Except ε) α} {f : α → StateT σ (Except ε) β} {Q : β → σ → Prop}
    {s : σ} : Wp allowed (m >>= f) Q s ↔ Wp allowed m (fun a s' => Wp allowed (f a) Q s') s := by
  unfold Wp
  have hbind : (m >>= f) s = (m s >>= fun r => f r.1 r.2) := rfl
  rw [hbind]
  cases m s <;> rfl

theorem bind {m : StateT σ (Except ε) α} {f : α → StateT σ (Except ε) β} {R : α → σ → Prop}
    {Q : β → σ → Prop} {s : σ} (h : Wp allowed m R s)
    (hf : ∀ a s', R a s' → Wp allowed (f a) Q s') : Wp allowed (m >>= f) Q s :=
  bind_iff.mpr (h.mono hf)

theorem of_run {m : StateT σ (Except ε) α} {f : α → StateT σ (Except ε) β} {Q : β → σ → Prop}
    {s s' : σ} {a : α} (hm : m s = .ok (a, s')) (hf : Wp allowed (f a) Q s') :
    Wp allowed (m >>= f) Q s := by
  unfold Wp at hf ⊢
  rw [run_bind hm]
  exact hf

/-- A loop over a list keeps an invariant that may mention the elements still to come. -/
theorem forM {ι : Type} {body : ι → StateT σ (Except ε) PUnit} {I : List ι → σ → Prop}
    (hbody : ∀ i l s, I (i :: l) s → Wp allowed (body i) (fun _ s' => I l s') s) :
    ∀ l s, I l s → Wp allowed (ForM.forM l body) (fun _ s' => I [] s') s
  | [], _, h => h
  | i :: l, s, h => by
    rw [List.forM_cons]
    exact (hbody i l s h).bind fun _ s' hs' => forM hbody l s' hs'

/-- A program that ends well satisfies its postcondition. -/
theorem of_ok {m : StateT σ (Except ε) α} {Q : α → σ → Prop} {s s' : σ} {a : α}
    (h : Wp allowed m Q s) (hm : m s = .ok (a, s')) : Q a s' := by
  unfold Wp at h
  rw [hm] at h
  exact h

theorem of_isOk {m : StateT σ (Except ε) α} {Q : α → σ → Prop} {s : σ} (h : Wp allowed m Q s)
    (hm : (m s).isOk = true) : ∃ a s', m s = .ok (a, s') ∧ Q a s' := by
  cases hrun : m s with
  | ok r => exact ⟨r.1, r.2, rfl, h.of_ok hrun⟩
  | error e =>
    rw [hrun] at hm
    cases hm

end Wp

end EquivChecker
