import Mathlib.Algebra.BigOperators.Group.List.Basic
import Mathlib.Tactic

/-! Cells that threads add amounts to, each amount in one atomic step. A cell ends up with all amounts
that are meant for it, in whatever order they arrive. -/
namespace AtomicAdds
variable {ι M : Type*} [DecidableEq ι]

/-- A loop that gets to each cell at most once. -/
theorem foldl_update (f : ι → M → M) {order : List ι} (hnodup : order.Nodup) (cells : ι → M)
    (i : ι) : order.foldl (fun cells i => Function.update cells i (f i (cells i))) cells i =
      if i ∈ order then f i (cells i) else cells i := by
  induction order generalizing cells with
  | nil => simp
  | cons j order ih =>
    obtain ⟨hj, hnodup⟩ := List.nodup_cons.mp hnodup
    rw [List.foldl_cons, ih hnodup]
    by_cases hi : i = j
    · subst hi
      simp [hj]
    · simp [hi]

section Add
variable [Add M]

def addTo (cells : ι → M) (a : ι × M) : ι → M := Function.update cells a.1 (cells a.1 + a.2)

def addAll (adds : List (ι × M)) (cells : ι → M) : ι → M := adds.foldl addTo cells

end Add

variable [AddCommMonoid M]

/-- What is meant for a cell. -/
def received (adds : List (ι × M)) (i : ι) : M := ((adds.filter fun a => a.1 = i).map Prod.snd).sum

@[simp] theorem received_nil (i : ι) : received ([] : List (ι × M)) i = 0 := rfl

theorem received_cons (a : ι × M) (adds : List (ι × M)) (i : ι) :
    received (a :: adds) i = (if a.1 = i then a.2 else 0) + received adds i := by
  unfold received
  by_cases h : a.1 = i <;> simp [h]

theorem received_append (adds adds' : List (ι × M)) (i : ι) :
    received (adds ++ adds') i = received adds i + received adds' i := by
  simp [received]

theorem received_perm {adds adds' : List (ι × M)} (h : adds.Perm adds') (i : ι) :
    received adds i = received adds' i := ((h.filter _).map _).sum_eq

theorem addAll_apply (adds : List (ι × M)) (cells : ι → M) (i : ι) :
    addAll adds cells i = cells i + received adds i := by
  induction adds generalizing cells with
  | nil => simp [addAll]
  | cons a adds ih =>
    have hstep : addTo cells a i = cells i + if a.1 = i then a.2 else 0 := by
      unfold addTo
      by_cases h : a.1 = i
      · subst h
        simp
      · simp [h, Function.update_of_ne (Ne.symm h)]
    rw [addAll, List.foldl_cons, ← addAll, ih, hstep, received_cons, add_assoc]

/-- The same additions give the same cells. -/
theorem addAll_perm {adds adds' : List (ι × M)} (h : adds.Perm adds') (cells : ι → M) :
    addAll adds cells = addAll adds' cells := by
  funext i
  rw [addAll_apply, addAll_apply, received_perm h]

/-- Equal additions are counted. -/
theorem received_const (l : List ι) (x : M) (i : ι) :
    received (l.map fun j => (j, x)) i = l.count i • x := by
  induction l with
  | nil => simp
  | cons j l ih =>
    rw [List.map_cons, received_cons, ih, List.count_cons]
    by_cases h : j = i
    · simp [h, add_nsmul, add_comm]
    · simp [h]

theorem received_ones {R : Type*} [AddCommMonoidWithOne R] (l : List ι) (i : ι) :
    received (l.map fun j => (j, (1 : R))) i = l.count i := by
  rw [received_const, nsmul_one]

theorem received_flatMap {α : Type*} (l : List α) (adds : α → List (ι × M)) (i : ι) :
    received (l.flatMap adds) i = (l.map fun a => received (adds a) i).sum := by
  induction l with
  | nil => rfl
  | cons a l ih => rw [List.flatMap_cons, received_append, ih, List.map_cons, List.sum_cons]

/-- Only the positive amounts count. -/
theorem sum_positive [LinearOrder M] {adds : List (ι × M)} (h : ∀ a ∈ adds, 0 ≤ a.2) (i : ι) :
    ((adds.filter fun a => a.1 = i ∧ 0 < a.2).map Prod.snd).sum = received adds i := by
  induction adds with
  | nil => rfl
  | cons a adds ih =>
    obtain ⟨ha, hrest⟩ := List.forall_mem_cons.mp h
    rw [received_cons, ← ih hrest, List.filter_cons]
    by_cases hi : a.1 = i
    · rcases ha.lt_or_eq with hpos | hzero
      · simp [hi, hpos]
      · simp [hi, ← hzero]
    · simp [hi]

end AtomicAdds
