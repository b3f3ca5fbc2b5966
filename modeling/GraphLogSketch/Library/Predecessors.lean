import GraphLogSketch.Library.Betweenness
import GraphLogSketch.Library.LevelSearch

/-! A search that lists with each vertex the ones that come before it on its shortest paths. What the
vertices depend on can then be pushed from each to its predecessors. -/
namespace LevelSearch
open ShortestPaths
variable {V : Type*} [DecidableEq V] (out : V → List V) (s : V) (k : ℕ)

open scoped Classical in
/-- On how many edges `u` comes right before `v` on the shortest paths to it. -/
noncomputable def precedes (u v : V) : ℕ :=
  if ∃ m, Distance out s u m ∧ Distance out s v (m + 1) then (out u).count v else 0

open scoped Classical in
/-- Predecessors while the edges from distance `k` are looked at. -/
structure Traced (predecessors : V → List V) (pending : Multiset (V × V)) : Prop where
  near : ∀ {v m}, Distance out s v m → m ≤ k → ∀ u, (predecessors v).count u = precedes out s u v
  beyond : ∀ {v}, Beyond out s k v → ∀ u, (predecessors v).count u + pending.count (u, v) =
    if Distance out s u k then (out u).count v else 0

variable {out s k} {predecessors : V → List V} {pending : Multiset (V × V)} {level : Multiset V}
  {u v : V}

theorem precedes_source (u : V) : precedes out s u s = 0 := by
  rw [precedes, if_neg]
  rintro ⟨m, -, hs⟩
  have h0 := hs.unique (distance_zero_iff.mpr rfl)
  omega

open scoped Classical in
theorem precedes_eq (hv : Distance out s v (k + 1)) (u : V) :
    precedes out s u v = if Distance out s u k then (out u).count v else 0 := by
  have hiff : (∃ m, Distance out s u m ∧ Distance out s v (m + 1)) ↔ Distance out s u k := by
    constructor
    · rintro ⟨m, hu, hm⟩
      have hmk := hm.unique hv
      obtain rfl : m = k := by omega
      exact hu
    · exact fun hu => ⟨k, hu, hv⟩
  simp only [precedes, hiff]

theorem precedes_of_not_reaches (h : ¬ Reaches out s v) (u : V) : precedes out s u v = 0 := by
  rw [precedes, if_neg]
  rintro ⟨m, -, hv⟩
  exact h hv.reaches

theorem distance_of_precedes (h : precedes out s u v ≠ 0) (hu : Distance out s u k) :
    Distance out s v (k + 1) := by
  rw [precedes] at h
  split_ifs at h with hm
  · obtain ⟨m, hu', hv⟩ := hm
    exact hu'.unique hu ▸ hv
  · exact absurd rfl h

theorem count_edgesFrom (hlevel : level.Nodup) (u v : V) :
    (edgesFrom out level).count (u, v) = if u ∈ level then (out u).count v else 0 := by
  have hrow (w : V) : (Multiset.ofList ((out w).map fun d => (w, d))).count (u, v) =
      if w = u then (out w).count v else 0 := by
    split_ifs with hw
    · subst hw
      rw [← Multiset.coe_count]
      exact Multiset.count_map_eq_count' _ (Multiset.ofList (out w)) (Prod.mk_right_injective w) v
    · rw [Multiset.count_eq_zero, Multiset.mem_coe]
      intro hmem
      obtain ⟨d, -, hd⟩ := List.mem_map.mp hmem
      exact hw (Prod.mk.inj hd).1
  induction level using Multiset.induction with
  | empty => rfl
  | cons w level ih =>
    obtain ⟨hw, hnodup⟩ := Multiset.nodup_cons.mp hlevel
    rw [edgesFrom_cons, Multiset.count_add, hrow, ih hnodup]
    by_cases hwu : w = u
    · subst hwu
      rw [if_pos rfl, if_neg hw, if_pos (Multiset.mem_cons_self w level), add_zero]
    · simp only [if_neg hwu, zero_add, Multiset.mem_cons, Ne.symm hwu, false_or]

namespace Traced

/-- The edge to a vertex of the next level is noted there. -/
theorem take (h : Traced out s k predecessors ((u, v) ::ₘ pending)) (hv : Beyond out s k v) :
    Traced out s k (Function.update predecessors v (predecessors v ++ [u])) pending where
  near := by
    intro w m hw hm x
    have hne : w ≠ v := by
      rintro rfl
      exact hv m hm hw
    rw [Function.update_of_ne hne]
    exact h.near hw hm x
  beyond := by
    intro w hw x
    rw [← h.beyond hw x]
    by_cases hwv : w = v
    · subst hwv
      rw [Function.update_self, List.count_append, Multiset.count_cons, List.count_singleton]
      by_cases hxu : x = u
      · simp only [hxu, beq_self_eq_true, if_true]
        omega
      · have hux : ¬ (x, w) = (u, w) := fun heq => hxu (Prod.mk.inj heq).1
        simp [hux, Ne.symm hxu]
    · have hne : ¬ (x, w) = (u, v) := fun heq => hwv (Prod.mk.inj heq).2
      rw [Function.update_of_ne hwv, Multiset.count_cons, if_neg hne, add_zero]

/-- An edge to a vertex that is as near as its source is not noted. -/
theorem skip (h : Traced out s k predecessors ((u, v) ::ₘ pending)) (hv : ¬ Beyond out s k v) :
    Traced out s k predecessors pending where
  near := h.near
  beyond := by
    intro w hw x
    have hne : ¬ (x, w) = (u, v) := by
      intro heq
      obtain rfl := (Prod.mk.inj heq).2
      exact hv hw
    rw [← h.beyond hw x, Multiset.count_cons, if_neg hne, add_zero]

open scoped Classical in
/-- When no edge is left, the edges from the next level are. -/
theorem next (h : Traced out s k predecessors 0) (hlevel : IsLevel out s (k + 1) level) :
    Traced out s (k + 1) predecessors (edgesFrom out level) where
  near := by
    intro v m hv hm u
    rcases Nat.lt_or_eq_of_le hm with hlt | rfl
    · exact h.near hv (Nat.le_of_lt_succ hlt) u
    · rw [precedes_eq hv, ← h.beyond (beyond_of_distance hv (Nat.lt_succ_self k)) u,
        Multiset.count_zero, add_zero]
  beyond := by
    intro v hv u
    have hbeyond : Beyond out s k v := fun m hm => hv m (Nat.le_succ_of_le hm)
    have hnone : (predecessors v).count u = 0 := by
      have hcount := h.beyond hbeyond u
      rw [Multiset.count_zero, add_zero] at hcount
      rw [hcount]
      split_ifs with hu
      · rw [List.count_eq_zero]
        exact fun hmem => hv _ le_rfl (edge_beyond hu hmem hbeyond)
      · rfl
    rw [hnone, zero_add, count_edgesFrom hlevel.nodup]
    exact if_congr hlevel.mem_iff rfl rfl

open scoped Classical in
/-- After the last level the predecessors of every vertex are known. -/
theorem finish (h : Traced out s k predecessors pending)
    (hlast : ∀ v m, Distance out s v m → m ≤ k) (u v : V) :
    (predecessors v).count u = precedes out s u v := by
  by_cases hr : Reaches out s v
  · obtain ⟨m, hv⟩ := hr.exists_distance
    exact h.near hv (hlast v m hv) u
  · have hcount := h.beyond (fun m _ hm => hr hm.reaches) u
    have hzero : (if Distance out s u k then (out u).count v else 0) = 0 := by
      split_ifs with hu
      · rw [List.count_eq_zero]
        intro hmem
        obtain ⟨m, -, hm⟩ := hu.edge hmem
        exact hr hm.reaches
      · rfl
    rw [precedes_of_not_reaches hr]
    omega

end Traced

theorem traced_zero (s : V) : Traced out s 0 (fun _ => []) (edgesFrom out {s}) where
  near := by
    intro v m hv hm u
    obtain rfl := Nat.le_zero.mp hm
    obtain rfl := distance_zero_iff.mp hv
    rw [precedes_source, List.count_nil]
  beyond := by
    intro v _ u
    rw [count_edgesFrom (Multiset.nodup_singleton s), List.count_nil, zero_add]
    simp only [Multiset.mem_singleton, distance_zero_iff, eq_comm]

section Ahead
variable (out s k) (N : Finset V)

open scoped Classical in
/-- The vertices at distance `k` or further away. -/
noncomputable def ahead : Finset V := N.filter fun v => ∃ m, k ≤ m ∧ Distance out s v m

variable {out s k N}

theorem mem_ahead : v ∈ ahead out s k N ↔ v ∈ N ∧ ∃ m, k ≤ m ∧ Distance out s v m := by
  classical
  exact Finset.mem_filter

/-- Once a level is done, so many vertices less are ahead. -/
theorem IsLevel.card_ahead (h : IsLevel out s k level) (hclosed : Closed out N) (hs : s ∈ N) :
    level.card + (ahead out s (k + 1) N).card ≤ (ahead out s k N).card := by
  have hdisjoint : Disjoint (⟨level, h.nodup⟩ : Finset V) (ahead out s (k + 1) N) := by
    rw [Finset.disjoint_left]
    intro v hv hahead
    obtain ⟨-, m, hm, hd⟩ := mem_ahead.mp hahead
    have hmk := hd.unique (h.mem_iff.mp hv)
    omega
  show (⟨level, h.nodup⟩ : Finset V).card + _ ≤ _
  rw [← Finset.card_union_of_disjoint hdisjoint]
  apply Finset.card_le_card
  apply Finset.union_subset
  · intro v hv
    have hd := h.mem_iff.mp hv
    exact mem_ahead.mpr ⟨hclosed.mem_of_walk hs hd.1, k, le_rfl, hd⟩
  · intro v hv
    obtain ⟨hN, m, hm, hd⟩ := mem_ahead.mp hv
    exact mem_ahead.mpr ⟨hN, m, Nat.le_of_succ_le hm, hd⟩

/-- Every vertex that is reached, apart from the source, is reached over an edge of its own. -/
theorem card_ahead_zero (hclosed : Closed out N) (hs : s ∈ N) :
    (ahead out s 0 N).card ≤ 1 + ∑ v ∈ N, (out v).length := by
  have hsub : ahead out s 0 N ⊆ insert s (N.biUnion fun u => (out u).toFinset) := by
    intro v hv
    obtain ⟨-, m, -, hd⟩ := mem_ahead.mp hv
    cases m with
    | zero =>
      obtain rfl := distance_zero_iff.mp hd
      exact Finset.mem_insert_self _ _
    | succ m =>
      obtain ⟨u, hu, hmem⟩ := hd.pred
      apply Finset.mem_insert_of_mem
      exact Finset.mem_biUnion.mpr ⟨u, hclosed.mem_of_walk hs hu.1, List.mem_toFinset.mpr hmem⟩
  calc (ahead out s 0 N).card
      ≤ (insert s (N.biUnion fun u => (out u).toFinset)).card := Finset.card_le_card hsub
    _ ≤ (N.biUnion fun u => (out u).toFinset).card + 1 := Finset.card_insert_le _ _
    _ ≤ ∑ u ∈ N, (out u).toFinset.card + 1 := Nat.succ_le_succ Finset.card_biUnion_le
    _ ≤ ∑ u ∈ N, (out u).length + 1 :=
        Nat.succ_le_succ (Finset.sum_le_sum fun u _ => List.toFinset_card_le (out u))
    _ = 1 + ∑ u ∈ N, (out u).length := Nat.add_comm _ _

end Ahead

end LevelSearch

namespace Betweenness
open ShortestPaths LevelSearch
variable {V : Type*} [DecidableEq V] {out : V → List V} {N : Finset V} {s v : V} {k : ℕ}

/-- The dependency of a vertex from those of the vertices it precedes. -/
theorem dependency_eq_sum_precedes (hclosed : Closed out N) (hN : v ∈ N)
    (hv : Distance out s v k) (hk : 0 < k) : dependency out N s v =
      ∑ d ∈ N, precedes out s v d *
        ((1 + dependency out N s d) * (pathCount out s v / pathCount out s d : ℚ)) := by
  rw [dependency_eq_sum hclosed hN hv hk, sum_map_count _ (hclosed v hN), Finset.mul_sum]
  apply Finset.sum_congr rfl
  intro d _
  by_cases hd : Distance out s d (k + 1)
  · rw [if_pos hd, precedes_eq hd, if_pos hv]
    ring
  · have hzero : precedes out s v d = 0 := by
      by_contra hne
      exact hd (distance_of_precedes hne hv)
    rw [if_neg hd, hzero, mul_zero, mul_zero, Nat.cast_zero, zero_mul]

end Betweenness
