import Mathlib.Data.List.Perm.Basic
import Mathlib.Tactic

/-! Maps from keys to lists of values, into which pairs are put one after the other. -/
namespace Grouping
variable {K V : Type*}

/-- The pairs that a map holds. -/
def pairs (m : List (K × List V)) : List (K × V) := m.flatMap fun p => p.2.map fun v => (p.1, v)

@[simp] theorem pairs_cons (p : K × List V) (m : List (K × List V)) :
    pairs (p :: m) = p.2.map (fun v => (p.1, v)) ++ pairs m := rfl

theorem pairs_perm {m m' : List (K × List V)} (h : m.Perm m') : (pairs m).Perm (pairs m') :=
  h.flatMap_right _

variable [DecidableEq K]

/-- Append a value to the list of its key; a new key gets a list. -/
def emplace (m : List (K × List V)) (k : K) (v : V) : List (K × List V) :=
  match m with
  | [] => [(k, [v])]
  | p :: m => if p.1 = k then (p.1, p.2 ++ [v]) :: m else p :: emplace m k v

def grouped (es : List (K × V)) : List (K × List V) := es.foldl (fun m e => emplace m e.1 e.2) []

theorem pairs_emplace (m : List (K × List V)) (k : K) (v : V) :
    (pairs (emplace m k v)).Perm (pairs m ++ [(k, v)]) := by
  induction m with
  | nil => exact .refl _
  | cons p m ih =>
    unfold emplace
    split_ifs with hk
    · rw [pairs_cons, pairs_cons, List.map_append, List.append_assoc, List.append_assoc, ← hk]
      exact (List.perm_append_comm).append_left _
    · rw [pairs_cons, pairs_cons, List.append_assoc]
      exact ih.append_left _

theorem pairs_foldl_emplace (es : List (K × V)) (m : List (K × List V)) :
    (pairs (es.foldl (fun m e => emplace m e.1 e.2) m)).Perm (pairs m ++ es) := by
  induction es generalizing m with
  | nil => simp
  | cons e es ih =>
    refine (ih _).trans (((pairs_emplace m e.1 e.2).append_right es).trans ?_)
    simp

/-- Each pair is kept, as often as it was put in. -/
theorem pairs_grouped (es : List (K × V)) : (pairs (grouped es)).Perm es := by
  have hfold := pairs_foldl_emplace es ([] : List (K × List V))
  exact hfold

theorem ne_nil_of_mem_emplace {m : List (K × List V)} {k : K} {v : V} (hm : ∀ p ∈ m, p.2 ≠ [])
    {p : K × List V} (hp : p ∈ emplace m k v) : p.2 ≠ [] := by
  induction m with
  | nil =>
    rw [List.mem_singleton.mp hp]
    exact List.cons_ne_nil _ _
  | cons q m ih =>
    have hrest : ∀ p ∈ m, p.2 ≠ [] := fun p hp => hm p (List.mem_cons_of_mem q hp)
    unfold emplace at hp
    split_ifs at hp
    · rcases List.mem_cons.mp hp with rfl | hp
      · exact List.append_ne_nil_of_right_ne_nil _ (List.cons_ne_nil _ _)
      · exact hrest p hp
    · rcases List.mem_cons.mp hp with rfl | hp
      · exact hm p List.mem_cons_self
      · exact ih hrest hp

/-- A key that is there has a value. -/
theorem grouped_ne_nil {es : List (K × V)} {p : K × List V} (hp : p ∈ grouped es) : p.2 ≠ [] := by
  have hfold (es : List (K × V)) (m : List (K × List V)) (hm : ∀ p ∈ m, p.2 ≠ []) :
      ∀ p ∈ es.foldl (fun m e => emplace m e.1 e.2) m, p.2 ≠ [] := by
    induction es generalizing m with
    | nil => exact hm
    | cons e es ih => exact ih _ fun p hp => ne_nil_of_mem_emplace hm hp
  exact hfold es [] (fun p hp => absurd hp List.not_mem_nil) p hp

end Grouping
