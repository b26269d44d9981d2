import EquivChecker.SetFamily

/-!
# Finding shared memory

Every function is run once to find the bytes that it reads and writes. The data aborts
of that run are given, one list for each function: what the instruction touches, and
whether it writes.
-/

namespace EquivChecker.SharedMemory

open SetTrie OwnedHeap

structure DataAbort where
  touched : List Word
  write : Bool
  deriving DecidableEq, Repr

/-- `rw_tracker_data_abort_handler`, with the trackers of `find_rw_set`. No schedule is set,
so the touch handler does nothing. -/
def rw_tracker_data_abort_handler (read write : Ptr) (abort : DataAbort) : SetM PUnit := do
  let touched ← set_alloc
  forM abort.touched fun v => do
    let _ ← set_insert levels touched v
  set_union_inplace levels (if abort.write then write else read) touched
  set_free levels touched

def find_rw_set (aborts : List DataAbort) (read write : Ptr) : SetM PUnit :=
  forM aborts (rw_tracker_data_abort_handler read write)

/-- The first loop of `find_shared_memory`, with the pairs of sets that it has made. -/
def find_rw_sets : List (List DataAbort) → List (Ptr × Ptr) → SetM (List (Ptr × Ptr))
  | [], sets => pure sets
  | aborts :: runs, sets => do
    let read ← set_alloc
    let write ← set_alloc
    find_rw_set aborts read write
    find_rw_sets runs (sets ++ [(read, write)])

/-- The body of both loops over pairs of functions. -/
def add_intersection (shared_memory x y : Ptr) : SetM PUnit := do
  let tmp ← set_alloc
  set_intersection levels tmp x y
  set_union_inplace levels shared_memory tmp
  set_free levels tmp

def read_sets (sets : List (Ptr × Ptr)) (i : ℕ) : Ptr := (sets.getD i (NULL, NULL)).1

def write_sets (sets : List (Ptr × Ptr)) (i : ℕ) : Ptr := (sets.getD i (NULL, NULL)).2

def find_shared_memory (runs : List (List DataAbort)) (shared_memory : Ptr) : SetM PUnit := do
  let sets ← find_rw_sets runs []
  forM (List.range runs.length) fun i => forM (List.range runs.length) fun j =>
    if i = j then pure ()
    else add_intersection shared_memory (read_sets sets i) (write_sets sets j)
  forM (List.range runs.length) fun i => forM (List.range' (i + 1) (runs.length - (i + 1))) fun j =>
    add_intersection shared_memory (read_sets sets i) (write_sets sets j)

/-- What a run reads or writes. -/
def accessed (w : Bool) (aborts : List DataAbort) : Set Word :=
  {v | ∃ a ∈ aborts, a.write = w ∧ v ∈ a.touched}

/-- What the `i`-th function reads. -/
def reads (runs : List (List DataAbort)) (i : ℕ) : Set Word := accessed false (runs.getD i [])

def writes (runs : List (List DataAbort)) (i : ℕ) : Set Word := accessed true (runs.getD i [])

/-- What one function writes and another one reads or writes. -/
def conflicts (runs : List (List DataAbort)) : Set Word :=
  {a | ∃ i j, i ≠ j ∧ a ∈ writes runs j ∧ (a ∈ reads runs i ∨ a ∈ writes runs i)}

/-- The sets that `find_shared_memory` works on. -/
inductive Var
  | shared
  | tmp
  | read (i : ℕ)
  | write (i : ℕ)
  deriving DecidableEq

/-- The sets in use after the first loop has made `n` pairs. -/
def Var.InUse (n : ℕ) : Var → Prop
  | shared => True
  | tmp => False
  | read i => i < n
  | write i => i < n

def pointer (shared_memory : Ptr) (sets : List (Ptr × Ptr)) : Var → Ptr
  | .shared => shared_memory
  | .tmp => NULL
  | .read i => read_sets sets i
  | .write i => write_sets sets i

def contents (runs : List (List DataAbort)) (S : Set Word) : Var → Set Word
  | .shared => S
  | .tmp => ∅
  | .read i => reads runs i
  | .write i => writes runs i

section Steps
variable {ι : Type} {s : SetHeap} {live : Set ι} {ptr ptr' : ι → Ptr}
  {A A' : ι → Set Word} {F : ι → Set Ptr} {r w x y z tmp : ι} {p : Ptr}

theorem insert_all_spec {F : Set Ptr} (ho : Owns s.nodes 6 p F) (l : List Word) :
    Ends (forM l fun v => do let _ ← set_insert levels p v)
      (fun _ t => Becomes s t 6 p F fun v => Has s.nodes 6 p v ∨ v ∈ l) s := by
  induction l generalizing s F with
  | nil => exact Wp.pure_iff.mpr ⟨F, ho, Moves.refl _ _, fun v => by simp⟩
  | cons v l ih =>
    rw [List.forM_cons]
    refine Wp.bind (R := fun _ t => Becomes s t 6 p F fun w => Has s.nodes 6 p w ∨ w = v) ?_ ?_
    · refine (set_insert_spec ho (by decide) v).bind ?_
      rintro - t ⟨hb, -⟩
      exact hb.congr fun w => or_congr_right agree_top
    · rintro - t ⟨F', hown, hm, hhas⟩
      refine (ih hown).mono ?_
      rintro - u ⟨F'', hown', hm', hhas'⟩
      refine ⟨F'', hown', hm.trans hm', fun w => (hhas' w).trans ?_⟩
      simp only [hhas w, List.mem_cons, or_assoc]

/-- A set made for one step is freed at its end. -/
theorem ends_free_tmp (hr : Represents s (insert tmp live) ptr' A' F) (htmp : tmp ∉ live)
    (hptr : ∀ x ∈ live, ptr' x = ptr x) (hA : ∀ x ∈ live, A' x = A x) :
    Ends (set_free levels (ptr' tmp)) (fun _ t => ∃ F', Represents t live ptr A F') s := by
  have hlive := Set.mem_insert tmp live
  refine (set_free_spec (hr.owns tmp hlive) (show 6 < levels by decide)).mono ?_
  intro _ t hfree
  have hrest : Represents t live ptr' A' F := (hr.free hlive hfree).mono fun x hx =>
    ⟨Set.mem_insert_of_mem tmp hx, fun h => htmp (h ▸ hx)⟩
  exact ⟨F, hrest.congr (fun x hx => (hptr x hx).symm) fun x hx => (hA x hx).symm⟩

/-- What the data aborts add to the set `x` when `r` and `w` are the trackers. -/
def recorded (r w : ι) (aborts : List DataAbort) (x : ι) : Set Word :=
  {v | ∃ a ∈ aborts, x = (if a.write then w else r) ∧ v ∈ a.touched}

theorem recorded_read (hne : r ≠ w) (aborts : List DataAbort) :
    recorded r w aborts r = accessed false aborts := by
  ext v
  refine exists_congr fun a => and_congr_right fun _ => and_congr_left fun _ => ?_
  cases a.write <;> simp [hne]

theorem recorded_write (hne : r ≠ w) (aborts : List DataAbort) :
    recorded r w aborts w = accessed true aborts := by
  ext v
  refine exists_congr fun a => and_congr_right fun _ => and_congr_left fun _ => ?_
  cases a.write <;> simp [hne.symm]

theorem recorded_other (hr : x ≠ r) (hw : x ≠ w) (aborts : List DataAbort) :
    recorded r w aborts x = ∅ := by
  ext v
  refine iff_of_false ?_ id
  rintro ⟨a, -, hx, -⟩
  split at hx
  · exact hw hx
  · exact hr hx

variable [DecidableEq ι]

/-- A set is made for one step, next to the others. -/
theorem ends_alloc_tmp (hr : Represents s live ptr A F) (htmp : tmp ∉ live) {rest : Ptr → SetM PUnit}
    {Q : PUnit → SetHeap → Prop} (hrest : ∀ t ptr' F', (∀ x ∈ live, ptr' x = ptr x) →
      Represents t (insert tmp live) ptr' (Function.update A tmp ∅) F' → Ends (rest (ptr' tmp)) Q t) :
    Ends (set_alloc >>= rest) Q s := by
  refine (hr.alloc tmp).bind ?_
  rintro p t ⟨F', hr'⟩
  have hp : Function.update ptr tmp p tmp = p := Function.update_self _ _ _
  rw [← hp]
  refine hrest t _ F' (fun x hx => Function.update_of_ne ?_ _ _) hr'
  rintro rfl
  exact htmp hx

theorem data_abort_spec (hr : Represents s live ptr A F) (htmp : tmp ∉ live) (hread : r ∈ live)
    (hwrite : w ∈ live) (abort : DataAbort) :
    Ends (rw_tracker_data_abort_handler (ptr r) (ptr w) abort)
      (fun _ t => ∃ F', Represents t live ptr (fun x => A x ∪ recorded r w [abort] x) F') s := by
  generalize hz : (if abort.write then w else r) = z
  have hlive : z ∈ live := by
    rw [← hz]
    split
    · exact hwrite
    · exact hread
  have hne : ∀ x ∈ live, x ≠ tmp := fun x hx h => htmp (h ▸ hx)
  have hptr : (if abort.write then ptr w else ptr r) = ptr z := by
    rw [← hz, apply_ite ptr]
  rw [rw_tracker_data_abort_handler, hptr]
  refine ends_alloc_tmp hr htmp fun t ptr₁ F₁ hsame hr₁ => ?_
  have htmp₁ : tmp ∈ insert tmp live := Set.mem_insert tmp live
  have hz₁ : z ∈ insert tmp live := Set.mem_insert_of_mem tmp hlive
  rw [← hsame z hlive]
  refine (insert_all_spec (hr₁.owns tmp htmp₁) abort.touched).bind fun _ t₂ hb₂ => ?_
  obtain ⟨F₂, hr₂⟩ := hr₁.change (B := {v | v ∈ abort.touched}) htmp₁ hb₂ fun v => by
    rw [hr₁.members tmp htmp₁, Function.update_self]
    simp
  refine (set_union_inplace_spec (hr₂.owns z hz₁) (hr₂.owns tmp htmp₁)
    (hr₂.disjoint z hz₁ tmp htmp₁ (hne z hlive)) (by decide)).bind fun _ t₃ hb₃ => ?_
  obtain ⟨F₃, hr₃⟩ := hr₂.change (B := A z ∪ {v | v ∈ abort.touched}) hz₁ hb₃ fun v => by
    rw [hr₂.members z hz₁, hr₂.members tmp htmp₁, Function.update_self,
      Function.update_of_ne (hne z hlive), Function.update_of_ne (hne z hlive)]
    rfl
  refine ends_free_tmp hr₃ htmp hsame fun x hx => ?_
  ext v
  by_cases hxz : x = z
  · rw [hxz, Function.update_self]
    simp [recorded, hz]
  · rw [Function.update_of_ne hxz, Function.update_of_ne (hne x hx), Function.update_of_ne (hne x hx)]
    simp [recorded, hz, hxz]

theorem find_rw_set_spec (hr : Represents s live ptr A F) (htmp : tmp ∉ live) (hread : r ∈ live)
    (hwrite : w ∈ live) (aborts : List DataAbort) :
    Ends (find_rw_set aborts (ptr r) (ptr w))
      (fun _ t => ∃ F', Represents t live ptr (fun x => A x ∪ recorded r w aborts x) F') s := by
  induction aborts generalizing s A F with
  | nil => exact Wp.pure_iff.mpr ⟨F, hr.congr (fun _ _ => rfl) fun x _ => by simp [recorded]⟩
  | cons a aborts ih =>
    rw [find_rw_set, List.forM_cons]
    refine (data_abort_spec hr htmp hread hwrite a).bind ?_
    rintro - t ⟨F', hr'⟩
    refine (ih hr').mono ?_
    rintro - u ⟨F'', hr''⟩
    refine ⟨F'', hr''.congr (fun _ _ => rfl) fun x _ => ?_⟩
    ext v
    simp [recorded, or_assoc]

theorem add_intersection_spec (hr : Represents s live ptr A F) (htmp : tmp ∉ live) (hz : z ∈ live)
    (hx : x ∈ live) (hy : y ∈ live) :
    Ends (add_intersection (ptr z) (ptr x) (ptr y))
      (fun _ t => ∃ F', Represents t live ptr (Function.update A z (A z ∪ A x ∩ A y)) F') s := by
  have hne : ∀ x ∈ live, x ≠ tmp := fun x hx h => htmp (h ▸ hx)
  refine ends_alloc_tmp hr htmp fun t ptr₁ F₁ hsame hr₁ => ?_
  have htmp₁ : tmp ∈ insert tmp live := Set.mem_insert tmp live
  have hin : ∀ x ∈ live, x ∈ insert tmp live := fun x hx => Set.mem_insert_of_mem tmp hx
  rw [← hsame z hz, ← hsame x hx, ← hsame y hy]
  refine (set_intersection_spec (hr₁.owns tmp htmp₁) (hr₁.owns x (hin x hx)) (hr₁.owns y (hin y hy))
    (hr₁.disjoint tmp htmp₁ x (hin x hx) (hne x hx).symm)
    (hr₁.disjoint tmp htmp₁ y (hin y hy) (hne y hy).symm) (by decide)).bind fun _ t₂ hb₂ => ?_
  obtain ⟨F₂, hr₂⟩ := hr₁.change (B := A x ∩ A y) htmp₁ hb₂ fun v => by
    rw [hr₁.members x (hin x hx), hr₁.members y (hin y hy), Function.update_of_ne (hne x hx),
      Function.update_of_ne (hne y hy)]
    rfl
  refine (set_union_inplace_spec (hr₂.owns z (hin z hz)) (hr₂.owns tmp htmp₁)
    (hr₂.disjoint z (hin z hz) tmp htmp₁ (hne z hz)) (by decide)).bind fun _ t₃ hb₃ => ?_
  obtain ⟨F₃, hr₃⟩ := hr₂.change (B := A z ∪ A x ∩ A y) (hin z hz) hb₃ fun v => by
    rw [hr₂.members z (hin z hz), hr₂.members tmp htmp₁, Function.update_self,
      Function.update_of_ne (hne z hz), Function.update_of_ne (hne z hz)]
    rfl
  refine ends_free_tmp hr₃ htmp hsame fun u hu => ?_
  by_cases huz : u = z
  · rw [huz, Function.update_self, Function.update_self]
  · rw [Function.update_of_ne huz, Function.update_of_ne (hne u hu), Function.update_of_ne (hne u hu),
      Function.update_of_ne huz]

end Steps

section Loops
variable {s : SetHeap} {shared_memory r w : Ptr} {sets : List (Ptr × Ptr)} {F : Var → Set Ptr}
  {runs : List (List DataAbort)} {S D : Set Word} {x : Var}

theorem pointer_append (hx : x.InUse (sets.length + 1)) : pointer shared_memory (sets ++ [(r, w)]) x =
    Function.update (Function.update (pointer shared_memory sets) (.read sets.length) r)
      (.write sets.length) w x := by
  rcases x with _ | _ | i | i
  · rfl
  · exact hx.elim
  all_goals
    have hi : i < sets.length + 1 := hx
    rcases Nat.lt_succ_iff_lt_or_eq.mp hi with hlt | rfl
    · simp [pointer, read_sets, write_sets, List.getElem?_append_left hlt, hlt.ne]
    · simp [pointer, read_sets, write_sets]

theorem contents_append {done : List (List DataAbort)} {aborts : List DataAbort}
    (hx : x.InUse (done.length + 1)) : contents (done ++ [aborts]) S x =
    Function.update (Function.update (contents done S) (.read done.length) ∅)
      (.write done.length) ∅ x ∪ recorded (.read done.length) (.write done.length) aborts x := by
  rcases x with _ | _ | i | i
  · rw [recorded_other (by simp) (by simp), Set.union_empty]
    rfl
  · exact hx.elim
  all_goals
    have hi : i < done.length + 1 := hx
    rcases Nat.lt_succ_iff_lt_or_eq.mp hi with hlt | rfl
  · rw [recorded_other (by simp [hlt.ne]) (by simp)]
    simp [contents, reads, List.getElem?_append_left hlt, hlt.ne]
  · rw [recorded_read (by simp)]
    simp [contents, reads]
  · rw [recorded_other (by simp) (by simp [hlt.ne])]
    simp [contents, writes, List.getElem?_append_left hlt, hlt.ne]
  · rw [recorded_write (by simp)]
    simp [contents, writes]

theorem find_rw_sets_spec (runs : List (List DataAbort)) {done : List (List DataAbort)}
    (hlen : sets.length = done.length)
    (hr : Represents s {x | x.InUse done.length} (pointer shared_memory sets) (contents done S) F) :
    Ends (find_rw_sets runs sets) (fun sets' t => ∃ F',
      Represents t {x | x.InUse (done ++ runs).length} (pointer shared_memory sets')
        (contents (done ++ runs) S) F') s := by
  induction runs generalizing s sets done F with
  | nil =>
    rw [List.append_nil]
    exact Wp.pure_iff.mpr ⟨F, hr⟩
  | cons aborts runs ih =>
    refine (hr.alloc (.read done.length)).bind ?_
    rintro read s₁ ⟨F₁, hr₁⟩
    refine (hr₁.alloc (.write done.length)).bind ?_
    rintro write s₂ ⟨F₂, hr₂⟩
    have hlive : insert (Var.write done.length) (insert (Var.read done.length)
        {x | x.InUse done.length}) = {x | x.InUse (done.length + 1)} := by
      ext x
      cases x <;> simp [Var.InUse] <;> omega
    rw [hlive, ← hlen] at hr₂
    have hr₃ := hr₂.congr (fun x hx => pointer_append hx) fun _ _ => rfl
    have htmp : Var.tmp ∉ {x : Var | x.InUse (sets.length + 1)} := id
    have hspec := find_rw_set_spec (r := .read sets.length) (w := .write sets.length) hr₃ htmp
      (Nat.lt_succ_self _) (Nat.lt_succ_self _) aborts
    rw [pointer_append (Nat.lt_succ_self _), pointer_append (Nat.lt_succ_self _)] at hspec
    simp only [Function.update_self, ne_eq, reduceCtorEq, not_false_eq_true, Function.update_of_ne] at hspec
    refine hspec.bind ?_
    rintro - s₄ ⟨F₄, hr₄⟩
    have happend : done ++ aborts :: runs = (done ++ [aborts]) ++ runs := by simp
    rw [happend]
    refine ih (F := F₄) (by simp [hlen]) ?_
    rw [List.length_append, List.length_singleton, ← hlen]
    refine hr₄.congr (fun _ _ => rfl) fun x hx => ?_
    rw [hlen] at hx ⊢
    exact contents_append hx

/-- The computation adds `D` to the shared memory. -/
def Adds (shared_memory : Ptr) (sets : List (Ptr × Ptr)) (runs : List (List DataAbort))
    (m : SetM PUnit) (D : Set Word) : Prop :=
  ∀ s S F, Represents s {x | x.InUse runs.length} (pointer shared_memory sets) (contents runs S) F →
    Ends m (fun _ t => ∃ F', Represents t {x | x.InUse runs.length} (pointer shared_memory sets)
      (contents runs (S ∪ D)) F') s

theorem adds_pure : Adds shared_memory sets runs (pure ()) ∅ := by
  intro s S F hr
  rw [Set.union_empty]
  exact Wp.pure_iff.mpr ⟨F, hr⟩

theorem adds_forM {α : Type} {body : α → SetM PUnit} {D : α → Set Word} (l : List α)
    (hbody : ∀ i ∈ l, Adds shared_memory sets runs (body i) (D i)) :
    Adds shared_memory sets runs (forM l body) {a | ∃ i ∈ l, a ∈ D i} := by
  induction l with
  | nil => simpa using adds_pure
  | cons i l ih =>
    intro s S F hr
    rw [List.forM_cons]
    refine (hbody i List.mem_cons_self s S F hr).bind ?_
    rintro - t ⟨F', hr'⟩
    refine (ih (fun j hj => hbody j (List.mem_cons_of_mem i hj)) t _ F' hr').mono ?_
    rintro - u ⟨F'', hr''⟩
    refine ⟨F'', ?_⟩
    have hall : S ∪ D i ∪ {a | ∃ j ∈ l, a ∈ D j} = S ∪ {a | ∃ j ∈ i :: l, a ∈ D j} := by
      ext a
      simp [or_assoc]
    rwa [hall] at hr''

theorem adds_intersection {i j : ℕ} (hi : i < runs.length) (hj : j < runs.length) :
    Adds shared_memory sets runs
      (add_intersection shared_memory (read_sets sets i) (write_sets sets j))
      (reads runs i ∩ writes runs j) := by
  intro s S F hr
  have hshared : Var.shared ∈ {x : Var | x.InUse runs.length} := trivial
  have hread : Var.read i ∈ {x : Var | x.InUse runs.length} := hi
  have hwrite : Var.write j ∈ {x : Var | x.InUse runs.length} := hj
  have htmp : Var.tmp ∉ {x : Var | x.InUse runs.length} := id
  refine (add_intersection_spec hr htmp hshared hread hwrite).mono ?_
  rintro - t ⟨F', hr'⟩
  refine ⟨F', hr'.congr (fun _ _ => rfl) ?_⟩
  rintro (_ | _ | i | i) _ <;> rfl

end Loops

/-- What one function reads and another one writes. -/
def found (runs : List (List DataAbort)) : Set Word :=
  {a | ∃ i j, i ≠ j ∧ a ∈ reads runs i ∧ a ∈ writes runs j}

variable {s t : SetHeap} {shared_memory : Ptr} {F : Set Ptr} {runs : List (List DataAbort)} {a : Word}
  {i : ℕ}

theorem lt_of_accessed {w : Bool} (h : a ∈ accessed w (runs.getD i [])) : i < runs.length := by
  by_contra hlen
  obtain ⟨b, hb, -⟩ := h
  simp [List.getElem?_eq_none (not_lt.mp hlen)] at hb

/-- The second loop adds nothing to what the first one found. -/
theorem pairs_found : ({a | ∃ i ∈ List.range runs.length, ∃ j ∈ List.range runs.length,
      a ∈ if i = j then ∅ else reads runs i ∩ writes runs j} ∪
    {a | ∃ i ∈ List.range runs.length, ∃ j ∈ List.range' (i + 1) (runs.length - (i + 1)),
      a ∈ reads runs i ∩ writes runs j} : Set Word) = found runs := by
  ext a
  constructor
  · rintro (⟨i, -, j, -, ha⟩ | ⟨i, -, j, hj, hread, hwrite⟩)
    · split at ha
      · exact ha.elim
      · exact ⟨i, j, ‹_›, ha.1, ha.2⟩
    · have hij := (List.mem_range'_1.mp hj).1
      exact ⟨i, j, by omega, hread, hwrite⟩
  · rintro ⟨i, j, hij, hread, hwrite⟩
    refine .inl ⟨i, List.mem_range.mpr (lt_of_accessed hread), j,
      List.mem_range.mpr (lt_of_accessed hwrite), ?_⟩
    rw [if_neg hij]
    exact ⟨hread, hwrite⟩

theorem find_shared_memory_represents (ho : Owns s.nodes 6 shared_memory F)
    (hempty : ∀ a, ¬Has s.nodes 6 shared_memory a) (runs : List (List DataAbort)) :
    Ends (find_shared_memory runs shared_memory) (fun _ t => ∃ sets F',
      Represents t {x | x.InUse runs.length} (pointer shared_memory sets) (contents runs (found runs)) F') s := by
  have hone := (represents_empty s (pointer shared_memory []) (contents [] ∅)).assign (z := .shared)
    (B := ∅) (Moves.refl s.nodes F) (fun x hx => absurd hx (Set.notMem_empty x)) ho
    fun v => iff_of_false (hempty v) id
  have hr : Represents s {x | x.InUse 0} (pointer shared_memory []) (contents [] ∅)
      (Function.update (fun _ => ∅) .shared F) := by
    have honly : ∀ x ∈ {x : Var | x.InUse 0}, x = .shared := by
      rintro (_ | _ | i | i) hx
      · rfl
      · exact hx.elim
      · exact absurd hx (Nat.not_lt_zero i)
      · exact absurd hx (Nat.not_lt_zero i)
    refine (hone.mono fun x hx => .inl (honly x hx)).congr (fun x hx => ?_) fun x hx => ?_
    · rw [honly x hx, Function.update_self]
      rfl
    · rw [honly x hx, Function.update_self]
      rfl
  have hlen : ([] : List (Ptr × Ptr)).length = ([] : List (List DataAbort)).length := rfl
  refine (find_rw_sets_spec runs hlen hr).bind ?_
  rintro sets t ⟨F₁, hr₁⟩
  rw [List.nil_append] at hr₁
  have hfirst : Adds shared_memory sets runs (forM (List.range runs.length) fun i =>
      forM (List.range runs.length) fun j => if i = j then pure ()
        else add_intersection shared_memory (read_sets sets i) (write_sets sets j))
      {a | ∃ i ∈ List.range runs.length, ∃ j ∈ List.range runs.length,
        a ∈ if i = j then ∅ else reads runs i ∩ writes runs j} := by
    refine adds_forM _ fun i hi => adds_forM _ fun j hj => ?_
    split
    · exact adds_pure
    · exact adds_intersection (List.mem_range.mp hi) (List.mem_range.mp hj)
  have hsecond : Adds shared_memory sets runs (forM (List.range runs.length) fun i =>
      forM (List.range' (i + 1) (runs.length - (i + 1))) fun j =>
        add_intersection shared_memory (read_sets sets i) (write_sets sets j))
      {a | ∃ i ∈ List.range runs.length, ∃ j ∈ List.range' (i + 1) (runs.length - (i + 1)),
        a ∈ reads runs i ∩ writes runs j} := by
    refine adds_forM _ fun i hi => adds_forM _ fun j hj => ?_
    have hij := List.mem_range'_1.mp hj
    exact adds_intersection (List.mem_range.mp hi) (by omega)
  refine (hfirst t ∅ F₁ hr₁).bind ?_
  rintro - u ⟨F₂, hr₂⟩
  refine (hsecond u _ F₂ hr₂).mono ?_
  rintro - v ⟨F₃, hr₃⟩
  rw [Set.empty_union, pairs_found] at hr₃
  exact ⟨sets, F₃, hr₃⟩

theorem find_shared_memory_spec (ho : Owns s.nodes 6 shared_memory F)
    (hempty : ∀ a, ¬Has s.nodes 6 shared_memory a) (runs : List (List DataAbort)) :
    Ends (find_shared_memory runs shared_memory) (fun _ t => ∀ a,
      set_lookup levels shared_memory a t = .ok (1, t) ↔ a ∈ found runs) s := by
  refine (find_shared_memory_represents ho hempty runs).mono ?_
  rintro - v ⟨sets, F₃, hr₃⟩ a
  have hshared : Var.shared ∈ {x : Var | x.InUse runs.length} := trivial
  obtain ⟨hin, hout⟩ := hr₃.lookup hshared a
  constructor
  · intro hlookup
    by_contra ha
    cases hlookup.symm.trans (hout ha)
  · exact hin

/-- `found` misses the bytes that several functions write and none reads. -/
theorem found_eq_conflicts_iff : found runs = conflicts runs ↔
    ∀ a i j, i ≠ j → a ∈ writes runs i → a ∈ writes runs j → ∃ k, a ∈ reads runs k := by
  constructor
  · intro heq a i j hij hi hj
    have ha : a ∈ found runs := heq ▸ ⟨i, j, hij, hj, .inr hi⟩
    obtain ⟨k, -, -, hk, -⟩ := ha
    exact ⟨k, hk⟩
  · intro hread
    ext a
    constructor
    · rintro ⟨i, j, hij, hi, hj⟩
      exact ⟨i, j, hij, hj, .inl hi⟩
    · rintro ⟨i, j, hij, hj, hi | hi⟩
      · exact ⟨i, j, hij, hi, hj⟩
      · obtain ⟨k, hk⟩ := hread a i j hij hi hj
        by_cases hki : k = i
        · exact ⟨k, j, hki ▸ hij, hk, hj⟩
        · exact ⟨k, i, hki, hk, hi⟩

/-- `find_shared_memory` finds exactly the conflicts if and only if every byte that several
functions write is read by some function. -/
theorem find_shared_memory_exact_iff (ho : Owns s.nodes 6 shared_memory F)
    (hempty : ∀ a, ¬Has s.nodes 6 shared_memory a) (runs : List (List DataAbort)) :
    Ends (find_shared_memory runs shared_memory) (fun _ t =>
      (∀ a, set_lookup levels shared_memory a t = .ok (1, t) ↔ a ∈ conflicts runs) ↔
        ∀ a i j, i ≠ j → a ∈ writes runs i → a ∈ writes runs j → ∃ k, a ∈ reads runs k) s := by
  refine (find_shared_memory_spec ho hempty runs).mono ?_
  intro _ t hfound
  simp only [hfound]
  rw [← found_eq_conflicts_iff, Set.ext_iff]

/-- Two functions that each load a byte and store to it. -/
def counters : List (List DataAbort) :=
  [[⟨[4096], false⟩, ⟨[4096], true⟩], [⟨[4096], false⟩, ⟨[4096], true⟩]]

theorem find_shared_memory_exact_iff_counters : ∃ t,
    find_shared_memory counters 1 oneSet = .ok ((), t) ∧
      ∀ a, set_lookup levels 1 a t = .ok (1, t) ↔ a ∈ conflicts counters := by
  have hends := fun runs hok => Wp.of_isOk
    (find_shared_memory_exact_iff owns_oneSet not_has_oneSet runs) hok
  obtain ⟨⟨⟩, t, hrun, hiff⟩ := hends counters (by decide +kernel)
  refine ⟨t, hrun, hiff.mpr fun a i j _ hi _ => ⟨0, ?_⟩⟩
  obtain ⟨b, hb, hw, ha⟩ := hi
  match i with
  | 0 | 1 =>
    rcases List.mem_pair.mp hb with rfl | rfl
    · cases hw
    · exact ⟨⟨[4096], false⟩, by decide, rfl, ha⟩
  | _ + 2 => exact absurd hb List.not_mem_nil

/-- Two functions that store to the same byte. -/
def writers : List (List DataAbort) := [[⟨[4096], true⟩], [⟨[4096], true⟩]]

/-- The byte that both functions store to is missed. -/
theorem writers_missed : ∃ t, find_shared_memory writers 1 oneSet = .ok ((), t) ∧
    set_lookup levels 1 4096 t ≠ .ok (1, t) ∧ 4096 ∈ conflicts writers := by
  have hspec := fun runs hok => Wp.of_isOk
    (find_shared_memory_spec owns_oneSet not_has_oneSet runs) hok
  obtain ⟨⟨⟩, t, hrun, hfound⟩ := hspec writers (by decide +kernel)
  refine ⟨t, hrun, fun hlookup => ?_, 0, 1, by decide, ?_, .inr ?_⟩
  · obtain ⟨i, -, -, ⟨b, hb, hw, -⟩, -⟩ := (hfound 4096).mp hlookup
    match i with
    | 0 | 1 =>
      rw [List.mem_singleton.mp hb] at hw
      cases hw
    | _ + 2 => exact absurd hb List.not_mem_nil
  · exact ⟨⟨[4096], true⟩, by decide, rfl, by decide⟩
  · exact ⟨⟨[4096], true⟩, by decide, rfl, by decide⟩

end EquivChecker.SharedMemory
