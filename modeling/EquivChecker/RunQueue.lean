import Mathlib.Data.List.Basic
import Mathlib.Logic.Function.Basic
import Mathlib.Data.Set.Basic

/-!
# First-in first-out queues through a link in the element

`push` links an element before the head, `append` clears the element's link and
links it after the tail, `pop` removes the head. As long as only elements outside
the queue are added the links spell a list. Adding an element that is already
queued does not fail: it closes a cycle that `pop` walks forever.
-/

namespace EquivChecker

/-- The operations of a run queue `Q` of elements `E`. -/
class RunQueue (Q : Type) (E : outParam Type) where
  empty : Q
  push : E → Q → Q
  append : E → Q → Q
  pop : Q → Option E × Q

instance {E : Type} : RunQueue (List E) E where
  empty := []
  push e l := e :: l
  append e l := l ++ [e]
  pop l := (l.head?, l.tail)

namespace RunQueue
variable {Q E : Type} [RunQueue Q E]

/-- Popping repeatedly yields the elements of the list, and then nothing. -/
def Yields : Q → List E → Prop
  | q, [] => (pop q).1 = none
  | q, e :: l => (pop q).1 = some e ∧ Yields (pop q).2 l

@[simp] theorem list_push (e : E) (l : List E) : push e l = e :: l := rfl
@[simp] theorem list_append (e : E) (l : List E) : append e l = l ++ [e] := rfl
@[simp] theorem list_pop (l : List E) : pop l = (l.head?, l.tail) := rfl

end RunQueue

/-- Head and tail of the queue, and the link stored in every element. -/
structure Intrusive (E : Type) where
  head : Option E
  tail : Option E
  next : E → Option E

namespace Intrusive
variable {E : Type} [DecidableEq E]

def push (e : E) (q : Intrusive E) : Intrusive E where
  head := some e
  tail := if q.tail.isSome then q.tail else some e
  next := Function.update q.next e q.head

def append (e : E) (q : Intrusive E) : Intrusive E :=
  match q.tail with
  | none => ⟨some e, some e, Function.update q.next e none⟩
  | some t => ⟨q.head, some e, Function.update (Function.update q.next e none) t (some e)⟩

def pop (q : Intrusive E) : Option E × Intrusive E :=
  match q.head with
  | none => (none, q)
  | some e => (some e, ⟨q.next e, if (q.next e).isSome then q.tail else none, q.next⟩)

instance : RunQueue (Intrusive E) E where
  empty := ⟨none, none, fun _ => none⟩
  push := push
  append := append
  pop := pop

/-- The links from the given start spell the list. -/
def Links (next : E → Option E) : Option E → List E → Prop
  | h, [] => h = none
  | h, e :: l => h = some e ∧ Links next (next e) l

/-- The queue holds the elements of the list, in this order, each once. -/
structure Holds (q : Intrusive E) (l : List E) : Prop where
  links : Links q.next q.head l
  nodup : l.Nodup
  tail : q.tail = l.getLast?

omit [DecidableEq E] in
theorem Links.congr {next next' : E → Option E} {h : Option E} {l : List E}
    (hl : Links next h l) (heq : ∀ e ∈ l, next' e = next e) : Links next' h l := by
  induction l generalizing h with
  | nil => exact hl
  | cons e l ih =>
    refine ⟨hl.1, ?_⟩
    rw [heq e List.mem_cons_self]
    exact ih hl.2 fun f hf => heq f (List.mem_cons_of_mem e hf)

theorem holds_empty : Holds (RunQueue.empty : Intrusive E) [] := ⟨rfl, .nil, rfl⟩

theorem Links.push {q : Intrusive E} {l : List E} (h : Links q.next q.head l) {e : E}
    (he : e ∉ l) : Links (push e q).next (push e q).head (e :: l) := by
  refine ⟨rfl, ?_⟩
  have hself : (Intrusive.push e q).next e = q.head := by simp [Intrusive.push]
  rw [hself]
  refine h.congr fun f hf => ?_
  have hne : f ≠ e := fun hfe => he (hfe ▸ hf)
  simp [Intrusive.push, hne]

theorem Holds.push {q : Intrusive E} {l : List E} (h : Holds q l) {e : E} (he : e ∉ l) :
    Holds (push e q) (e :: l) := by
  refine ⟨h.links.push he, List.nodup_cons.mpr ⟨he, h.nodup⟩, ?_⟩
  cases l with
  | nil => simp [Intrusive.push, h.tail]
  | cons f l => simp [Intrusive.push, h.tail]

theorem Links.append {next : E → Option E} {h : Option E} {l : List E} {t e : E}
    (hl : Links next h (l ++ [t])) (hn : (l ++ [t]).Nodup) (he : e ∉ l ++ [t]) :
    Links (Function.update (Function.update next e none) t (some e)) h (l ++ [t, e]) := by
  have het : e ≠ t := fun het => he (by simp [het])
  induction l generalizing h with
  | nil => simpa [Links, Function.update_of_ne het] using hl.1
  | cons f l ih =>
    have hft : f ≠ t := by
      rintro rfl
      simp at hn
    have hfe : f ≠ e := by
      rintro rfl
      simp at he
    refine ⟨hl.1, ?_⟩
    have hf : Function.update (Function.update next e none) t (some e) f = next f := by
      simp [hft, hfe]
    rw [hf]
    exact ih hl.2 (List.nodup_cons.mp hn).2 fun hm => he (List.mem_cons_of_mem f hm)

theorem Holds.append {q : Intrusive E} {l : List E} (h : Holds q l) {e : E} (he : e ∉ l) :
    Holds (append e q) (l ++ [e]) := by
  rcases List.eq_nil_or_concat' l with rfl | ⟨l, t, rfl⟩
  · have ht : q.tail = none := h.tail
    simp only [Intrusive.append, ht]
    exact ⟨⟨rfl, by simp [Links]⟩, by simp, rfl⟩
  · have ht : q.tail = some t := by simpa using h.tail
    have hnodup : ((l ++ [t]) ++ [e]).Nodup := by
      refine List.nodup_append.mpr ⟨h.nodup, by simp, ?_⟩
      rintro a ha b hb rfl
      exact he (List.mem_singleton.mp hb ▸ ha)
    simp only [Intrusive.append, ht]
    refine ⟨?_, hnodup, by simp⟩
    simpa using h.links.append h.nodup he

omit [DecidableEq E] in
theorem Holds.pop {q : Intrusive E} {e : E} {l : List E} (h : Holds q (e :: l)) :
    (pop q).1 = some e ∧ Holds (pop q).2 l := by
  have hh : q.head = some e := h.links.1
  have hpop : Intrusive.pop q = (some e, ⟨q.next e, if (q.next e).isSome then q.tail else none, q.next⟩) := by
    simp [Intrusive.pop, hh]
  rw [hpop]
  refine ⟨rfl, h.links.2, (List.nodup_cons.mp h.nodup).2, ?_⟩
  have htail := h.tail
  cases l with
  | nil =>
    have hn : q.next e = none := h.links.2
    simp [hn]
  | cons f l =>
    have hn : q.next e = some f := h.links.2.1
    simpa [hn] using htail

theorem Holds.yields {q : Intrusive E} {l : List E} (h : Holds q l) : RunQueue.Yields q l := by
  induction l generalizing q with
  | nil =>
    have hh : q.head = none := h.links
    change (Intrusive.pop q).1 = none
    simp [Intrusive.pop, hh]
  | cons e l ih => exact ⟨h.pop.1, ih h.pop.2⟩

/-- The head and every link of an element of `S` lead back into `S`. -/
structure Circular (q : Intrusive E) (S : Set E) : Prop where
  head : ∃ e ∈ S, q.head = some e
  next : ∀ e ∈ S, ∃ f ∈ S, q.next e = some f

omit [DecidableEq E] in
theorem Circular.pop {q : Intrusive E} {S : Set E} (h : Circular q S) :
    (∃ e ∈ S, (pop q).1 = some e) ∧ Circular (Intrusive.pop q).2 S := by
  obtain ⟨e, he, hh⟩ := h.head
  obtain ⟨f, hf, hn⟩ := h.next e he
  simp only [Intrusive.pop, hh]
  exact ⟨⟨e, he, rfl⟩, ⟨f, hf, hn⟩, h.next⟩

theorem Circular.push {q : Intrusive E} {S : Set E} (h : Circular q S) {e : E} (he : e ∈ S) :
    Circular (Intrusive.push e q) S := by
  refine ⟨⟨e, he, rfl⟩, fun f hf => ?_⟩
  by_cases hfe : f = e
  · obtain ⟨g, hg, hh⟩ := h.head
    exact ⟨g, hg, by simp [Intrusive.push, hfe, hh]⟩
  · simpa [Intrusive.push, hfe] using h.next f hf

/-- A circular queue never runs dry. -/
theorem Circular.not_yields {q : Intrusive E} {S : Set E} (h : Circular q S) (l : List E) :
    ¬RunQueue.Yields q l := by
  induction l generalizing q with
  | nil =>
    obtain ⟨⟨e, -, he⟩, -⟩ := h.pop
    intro hn
    exact absurd (he.symm.trans hn) (by simp)
  | cons e l ih => exact fun hy => ih h.pop.2 hy.2

omit [DecidableEq E] in
theorem Links.next_mem {next : E → Option E} {h : Option E} {l : List E} {t : E}
    (hl : Links next h (l ++ [t])) : ∀ e ∈ l, ∃ f ∈ l ++ [t], next e = some f := by
  induction l generalizing h with
  | nil => simp
  | cons g l ih =>
    intro e he
    rcases List.mem_cons.mp he with rfl | he
    · have h2 := hl.2
      cases l with
      | nil => exact ⟨t, by simp, h2.1⟩
      | cons f l => exact ⟨f, by simp, h2.1⟩
    · obtain ⟨f, hf, hn⟩ := ih hl.2 e he
      exact ⟨f, List.mem_cons_of_mem g hf, hn⟩

/-- Pushing the last element of a queue again closes the links to a cycle. -/
theorem Links.push_tail {q : Intrusive E} {l : List E} {t : E} (h : Links q.next q.head (l ++ [t])) :
    Circular (Intrusive.push t q) {e | e ∈ l ++ [t]} := by
  refine ⟨⟨t, by simp, rfl⟩, fun e he => ?_⟩
  by_cases het : e = t
  · subst het
    have hself : (Intrusive.push e q).next e = q.head := by simp [Intrusive.push]
    rw [hself]
    cases l with
    | nil => exact ⟨e, by simp, h.1⟩
    | cons f l => exact ⟨f, by simp, h.1⟩
  · have hmem : e ∈ l := by
      rcases List.mem_append.mp he with he | he
      · exact he
      · exact absurd (List.mem_singleton.mp he) het
    obtain ⟨f, hf, hn⟩ := h.next_mem e hmem
    exact ⟨f, hf, by simpa [Intrusive.push, het] using hn⟩

end Intrusive

end EquivChecker
