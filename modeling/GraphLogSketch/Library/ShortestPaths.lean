import Mathlib.Algebra.BigOperators.Group.Finset.Basic
import Mathlib.Algebra.Order.BigOperators.Group.Finset
import Mathlib.Data.Rat.Defs
import Mathlib.Order.ConditionallyCompleteLattice.Finset
import Mathlib.Tactic

/-! Shortest paths of a directed multigraph given by the lists of destinations. Parallel edges make
different paths, so a walk is listed as often as it can be walked. -/
namespace ShortestPaths
variable {V : Type*} [DecidableEq V] (out : V → List V)

/-- The walks of `n` edges from `s` to `t`, each as the vertices it visits. -/
def walks : ℕ → V → V → List (List V)
  | 0, s, t => if s = t then [[s]] else []
  | n + 1, s, t => (out s).flatMap fun d => (walks n d t).map (s :: ·)

def walkCount (n : ℕ) (s t : V) : ℕ := (walks out n s t).length

def Reaches (s t : V) : Prop := ∃ n, 0 < walkCount out n s t

/-- `n` is the least number of edges on a walk from `s` to `t`. -/
def Distance (s t : V) (n : ℕ) : Prop :=
  0 < walkCount out n s t ∧ ∀ m, 0 < walkCount out m s t → n ≤ m

/-- The shortest paths from `s` to `t`; there are none when `t` is not reachable. -/
noncomputable def shortestPaths (s t : V) : List (List V) :=
  walks out (sInf {n | 0 < walkCount out n s t}) s t

noncomputable def pathCount (s t : V) : ℕ := (shortestPaths out s t).length

/-- The shortest paths from `s` to `t` that visit `v`. -/
noncomputable def pathCountThrough (s t v : V) : ℕ := (shortestPaths out s t).countP (v ∈ ·)

variable {out} {s t u v : V} {k m n : ℕ}

theorem walkCount_zero (s t : V) : walkCount out 0 s t = if s = t then 1 else 0 := by
  rw [walkCount, walks]
  split_ifs <;> rfl

theorem walkCount_succ (n : ℕ) (s t : V) :
    walkCount out (n + 1) s t = ((out s).map fun d => walkCount out n d t).sum := by
  rw [walkCount, walks, List.length_flatMap]
  simp only [List.length_map, walkCount]

theorem walkCount_succ_pos :
    0 < walkCount out (n + 1) s t ↔ ∃ d ∈ out s, 0 < walkCount out n d t := by
  rw [walkCount_succ, List.sum_pos_iff_exists_pos_nat]
  simp

theorem walkCount_trans (hm : 0 < walkCount out m s u) (hn : 0 < walkCount out n u t) :
    0 < walkCount out (m + n) s t := by
  induction m generalizing s with
  | zero =>
    rw [walkCount_zero] at hm
    split_ifs at hm with heq
    · rwa [Nat.zero_add, heq]
    · exact absurd hm (lt_irrefl 0)
  | succ m ih =>
    obtain ⟨d, hd, hpos⟩ := walkCount_succ_pos.mp hm
    rw [Nat.succ_add]
    exact walkCount_succ_pos.mpr ⟨d, hd, ih hpos⟩

theorem walkCount_edge (hd : u ∈ out s) : 0 < walkCount out 1 s u :=
  walkCount_succ_pos.mpr ⟨u, hd, by simp [walkCount_zero]⟩

/-- A walk has its last edge, too. -/
theorem exists_last_edge (h : 0 < walkCount out (n + 1) s t) :
    ∃ u, 0 < walkCount out n s u ∧ t ∈ out u := by
  induction n generalizing s with
  | zero =>
    obtain ⟨d, hd, hpos⟩ := walkCount_succ_pos.mp h
    rw [walkCount_zero] at hpos
    split_ifs at hpos with heq
    · exact ⟨s, by simp [walkCount_zero], heq ▸ hd⟩
    · exact absurd hpos (lt_irrefl 0)
  | succ n ih =>
    obtain ⟨d, hd, hpos⟩ := walkCount_succ_pos.mp h
    obtain ⟨u, hu, ht⟩ := ih hpos
    exact ⟨u, walkCount_succ_pos.mpr ⟨d, hd, hu⟩, ht⟩

/-- A set of vertices that no edge leaves. -/
def Closed (out : V → List V) (N : Finset V) : Prop := ∀ v ∈ N, ∀ d ∈ out v, d ∈ N

theorem Closed.mem_of_walk {N : Finset V} (hN : Closed out N) (hs : s ∈ N)
    (h : 0 < walkCount out n s t) : t ∈ N := by
  induction n generalizing s with
  | zero =>
    rw [walkCount_zero] at h
    split_ifs at h with heq
    · exact heq ▸ hs
    · exact absurd h (lt_irrefl 0)
  | succ n ih =>
    obtain ⟨d, hd, hpos⟩ := walkCount_succ_pos.mp h
    exact ih (hN s hs d hd) hpos

theorem sum_map_count {M : Type*} [CommSemiring M] {N : Finset V} (f : V → M) {l : List V}
    (hl : ∀ d ∈ l, d ∈ N) : (l.map f).sum = ∑ u ∈ N, l.count u * f u := by
  simp only [Finset.sum_list_map_count, nsmul_eq_mul]
  apply Finset.sum_subset
  · exact fun d hd => hl d (List.mem_toFinset.mp hd)
  · intro d _ hd
    rw [List.count_eq_zero_of_not_mem fun hmem => hd (List.mem_toFinset.mpr hmem), Nat.cast_zero,
      zero_mul]

/-- Walks counted by their last edge. -/
theorem walkCount_succ_last {N : Finset V} (hN : Closed out N) (hs : s ∈ N) (n : ℕ) (t : V) :
    walkCount out (n + 1) s t = ∑ u ∈ N, walkCount out n s u * (out u).count t := by
  have hfirst (n : ℕ) {s : V} (hs : s ∈ N) (t : V) :
      walkCount out (n + 1) s t = ∑ d ∈ N, (out s).count d * walkCount out n d t := by
    rw [walkCount_succ, sum_map_count _ (hN s hs)]
    simp only [Nat.cast_id]
  induction n generalizing s with
  | zero =>
    rw [hfirst 0 hs]
    simp only [walkCount_zero, mul_ite, mul_one, mul_zero, ite_mul, one_mul, zero_mul,
      Finset.sum_ite_eq, Finset.sum_ite_eq', hs, if_true]
    split_ifs with ht
    · rfl
    · exact (List.count_eq_zero_of_not_mem fun hmem => ht (hN s hs t hmem)).symm
  | succ n ih =>
    calc walkCount out (n + 1 + 1) s t
        = ∑ d ∈ N, (out s).count d * ∑ u ∈ N, walkCount out n d u * (out u).count t := by
          rw [hfirst (n + 1) hs]
          exact Finset.sum_congr rfl fun d hd => by rw [ih hd]
      _ = ∑ u ∈ N, (∑ d ∈ N, (out s).count d * walkCount out n d u) * (out u).count t := by
          simp only [Finset.mul_sum, Finset.sum_mul]
          rw [Finset.sum_comm]
          simp only [mul_assoc]
      _ = ∑ u ∈ N, walkCount out (n + 1) s u * (out u).count t :=
          Finset.sum_congr rfl fun u _ => by rw [hfirst n hs]

/-- With at most `b` edges from each vertex the walks grow no faster than the powers of `b`. -/
theorem walkCount_le_pow {b : ℕ} (hb : ∀ v, (out v).length ≤ b) (n : ℕ) (s t : V) :
    walkCount out n s t ≤ b ^ n := by
  induction n generalizing s with
  | zero =>
    rw [walkCount_zero, pow_zero]
    split_ifs <;> omega
  | succ n ih =>
    rw [walkCount_succ, pow_succ']
    have hsum := List.sum_le_card_nsmul ((out s).map fun d => walkCount out n d t) (b ^ n) (by
      intro x hx
      obtain ⟨d, -, rfl⟩ := List.mem_map.mp hx
      exact ih d)
    rw [List.length_map, smul_eq_mul] at hsum
    exact hsum.trans (Nat.mul_le_mul_right _ (hb s))

section Distances

theorem Distance.reaches (h : Distance out s t n) : Reaches out s t := ⟨n, h.1⟩

theorem Distance.unique (hm : Distance out s t m) (hn : Distance out s t n) : m = n :=
  le_antisymm (hm.2 n hn.1) (hn.2 m hm.1)

theorem Distance.sInf_eq (h : Distance out s t n) : sInf {n | 0 < walkCount out n s t} = n := by
  have hmem : sInf {n | 0 < walkCount out n s t} ∈ {n | 0 < walkCount out n s t} :=
    Nat.sInf_mem ⟨n, h.1⟩
  exact le_antisymm (Nat.sInf_le h.1) (h.2 _ hmem)

theorem Reaches.exists_distance (h : Reaches out s t) : ∃ n, Distance out s t n :=
  ⟨sInf {n | 0 < walkCount out n s t}, Nat.sInf_mem h, fun _ hm => Nat.sInf_le hm⟩

theorem distance_zero_iff : Distance out s t 0 ↔ s = t := by
  rw [Distance, and_iff_left fun m _ => Nat.zero_le m, walkCount_zero]
  split_ifs with heq <;> simp [heq]

theorem Distance.pathCount (h : Distance out s t n) : pathCount out s t = walkCount out n s t := by
  rw [ShortestPaths.pathCount, shortestPaths, h.sInf_eq]
  rfl

theorem Distance.pathCount_pos (h : Distance out s t n) : 0 < ShortestPaths.pathCount out s t := by
  rw [h.pathCount]
  exact h.1

/-- An edge leads at most one step further. -/
theorem Distance.edge (h : Distance out s u n) (hv : v ∈ out u) :
    ∃ m ≤ n + 1, Distance out s v m := by
  have hwalk := walkCount_trans h.1 (walkCount_edge hv)
  obtain ⟨m, hm⟩ := Reaches.exists_distance ⟨_, hwalk⟩
  exact ⟨m, hm.2 _ hwalk, hm⟩

/-- A vertex at distance `n + 1` has an edge from one at distance `n`. -/
theorem Distance.pred (h : Distance out s v (n + 1)) : ∃ u, Distance out s u n ∧ v ∈ out u := by
  obtain ⟨u, hu, hv⟩ := exists_last_edge h.1
  refine ⟨u, ⟨hu, fun m hm => ?_⟩, hv⟩
  have hle := h.2 _ (walkCount_trans hm (walkCount_edge hv))
  omega

/-- On the way there is a vertex at every smaller distance. -/
theorem Distance.exists_at (h : Distance out s v n) (hm : m ≤ n) : ∃ u, Distance out s u m := by
  induction n generalizing v with
  | zero =>
    obtain rfl : m = 0 := Nat.le_zero.mp hm
    exact ⟨v, h⟩
  | succ n ih =>
    rcases Nat.lt_or_eq_of_le hm with hlt | rfl
    · obtain ⟨u, hu, -⟩ := h.pred
      exact ih hu (Nat.le_of_lt_succ hlt)
    · exact ⟨v, h⟩

/-- A shortest path visits no vertex twice, so it has fewer edges than there are vertices. -/
theorem Distance.lt_card {N : Finset V} (hclosed : Closed out N) (hs : s ∈ N)
    (h : Distance out s v n) : n < N.card := by
  have hat (i : ℕ) (hi : i ∈ Finset.range (n + 1)) : ∃ u, Distance out s u i :=
    h.exists_at (Nat.le_of_lt_succ (Finset.mem_range.mp hi))
  have hnonempty : Nonempty V := ⟨s⟩
  choose! f hf using hat
  have hle : (Finset.range (n + 1)).card ≤ N.card := by
    apply Finset.card_le_card_of_injOn f
    · exact fun i hi => hclosed.mem_of_walk hs (hf i hi).1
    · intro i hi j hj heq
      exact (hf i hi).unique (heq ▸ hf j hj)
  rwa [Finset.card_range] at hle

end Distances

theorem pathCount_eq_zero (h : ¬ Reaches out s t) : pathCount out s t = 0 := by
  by_contra hpos
  exact h ⟨_, Nat.pos_of_ne_zero hpos⟩

/-- With few edges from each vertex there are few shortest paths. -/
theorem pathCount_le_pow {N : Finset V} {b : ℕ} (hclosed : Closed out N) (hs : s ∈ N) (hb0 : 0 < b)
    (hb : ∀ v, (out v).length ≤ b) (t : V) : pathCount out s t ≤ b ^ N.card := by
  by_cases hr : Reaches out s t
  · obtain ⟨n, hn⟩ := hr.exists_distance
    rw [hn.pathCount]
    exact (walkCount_le_pow hb n s t).trans
      (Nat.pow_le_pow_right hb0 (hn.lt_card hclosed hs).le)
  · rw [pathCount_eq_zero hr]
    exact Nat.zero_le _

section Through

theorem walks_head {p : List V} (hp : p ∈ walks out n s t) : p[0]? = some s := by
  cases n with
  | zero =>
    rw [walks] at hp
    split_ifs at hp with heq
    · rw [List.mem_singleton.mp hp]
      rfl
    · exact absurd hp List.not_mem_nil
  | succ n =>
    obtain ⟨d, -, hp⟩ := List.mem_flatMap.mp hp
    obtain ⟨p, -, rfl⟩ := List.mem_map.mp hp
    rfl

/-- A vertex on a walk splits it. -/
theorem exists_split {p : List V} (hp : p ∈ walks out n s t) (hv : v ∈ p) :
    ∃ i ≤ n, p[i]? = some v ∧ 0 < walkCount out i s v ∧ 0 < walkCount out (n - i) v t := by
  induction n generalizing s p with
  | zero =>
    have hpos : 0 < walkCount out 0 s t := List.length_pos_of_mem hp
    rw [walks] at hp
    split_ifs at hp with heq
    · rw [List.mem_singleton.mp hp] at hv ⊢
      rw [List.mem_singleton.mp hv]
      exact ⟨0, le_rfl, rfl, by simp [walkCount_zero], hpos⟩
    · exact absurd hp List.not_mem_nil
  | succ n ih =>
    have hpos : 0 < walkCount out (n + 1) s t := List.length_pos_of_mem hp
    obtain ⟨d, hd, hmem⟩ := List.mem_flatMap.mp hp
    obtain ⟨q, hq, rfl⟩ := List.mem_map.mp hmem
    rcases List.mem_cons.mp hv with rfl | hv
    · exact ⟨0, Nat.zero_le _, rfl, by simp [walkCount_zero], hpos⟩
    · obtain ⟨i, hi, hget, hfront, hback⟩ := ih hq hv
      refine ⟨i + 1, Nat.succ_le_succ hi, hget, walkCount_succ_pos.mpr ⟨d, hd, hfront⟩, ?_⟩
      rwa [Nat.succ_sub_succ]

/-- The walks that are at `v` after `k` edges, counted by their two parts. -/
theorem countP_visits (hk : k ≤ n) (s t v : V) :
    (walks out n s t).countP (fun p => p[k]? = some v) =
      walkCount out k s v * walkCount out (n - k) v t := by
  induction k generalizing n s with
  | zero =>
    rw [walkCount_zero, Nat.sub_zero]
    split_ifs with heq
    · rw [one_mul, walkCount, ← heq, List.countP_eq_length]
      exact fun p hp => decide_eq_true (walks_head hp)
    · rw [zero_mul, List.countP_eq_zero]
      intro p hp hv
      rw [walks_head hp] at hv
      exact heq (Option.some.inj (of_decide_eq_true hv))
  | succ k ih =>
    obtain ⟨n, rfl⟩ : ∃ m, n = m + 1 := ⟨n - 1, by omega⟩
    have hstep (d : V) : ((walks out n d t).map (s :: ·)).countP (fun p => p[k + 1]? = some v) =
        walkCount out k d v * walkCount out (n - k) v t := by
      rw [List.countP_map, ← ih (Nat.le_of_succ_le_succ hk) d]
      rfl
    rw [walks, List.countP_flatMap, walkCount_succ, ← List.sum_map_mul_right, Nat.succ_sub_succ]
    congr 1
    apply List.map_congr_left
    intro d _
    exact hstep d

/-- A shortest path can be at `v` only when it has gone as far as `v` is away. -/
theorem pathCountThrough_eq (ht : Distance out s t n) (hv : Distance out s v k) (hk : k ≤ n) :
    pathCountThrough out s t v = pathCount out s v * walkCount out (n - k) v t := by
  rw [hv.pathCount, ← countP_visits hk, pathCountThrough, shortestPaths, ht.sInf_eq]
  apply List.countP_congr
  intro p hp
  rw [decide_eq_true_iff, decide_eq_true_iff]
  constructor
  · intro hmem
    obtain ⟨i, hi, hget, hfront, hback⟩ := exists_split hp hmem
    have hlow := hv.2 i hfront
    have hhigh := ht.2 _ (walkCount_trans hv.1 hback)
    have hik : i = k := by omega
    rwa [← hik]
  · exact fun hget => List.mem_of_getElem? hget

/-- No shortest path visits a vertex that is further away than its end or cannot be reached. -/
theorem pathCountThrough_eq_zero (h : ∀ k, Distance out s v k → ∀ n, Distance out s t n → n < k) :
    pathCountThrough out s t v = 0 := by
  rw [pathCountThrough, List.countP_eq_zero]
  intro p hp hv
  obtain ⟨n, hn⟩ : ∃ n, Distance out s t n :=
    Reaches.exists_distance ⟨_, List.length_pos_of_mem hp⟩
  rw [shortestPaths, hn.sInf_eq] at hp
  obtain ⟨i, hi, -, hfront, hback⟩ := exists_split hp (of_decide_eq_true hv)
  obtain ⟨k, hk⟩ := Reaches.exists_distance ⟨i, hfront⟩
  have hlt := h k hk n hn
  have hle := hk.2 i hfront
  omega

end Through

section Congr
variable {out' : V → List V} {N : Finset V}

section Edges
variable (hclosed : Closed out N) (hsame : ∀ v ∈ N, ∀ d, d ∈ out v ↔ d ∈ out' v) (hs : s ∈ N)
include hclosed hsame hs

/-- Where walks lead does not depend on how often there is an edge. -/
theorem walkCount_pos_congr (n : ℕ) (t : V) : 0 < walkCount out n s t ↔ 0 < walkCount out' n s t := by
  induction n generalizing s with
  | zero => rw [walkCount_zero, walkCount_zero]
  | succ n ih =>
    rw [walkCount_succ_pos, walkCount_succ_pos]
    constructor
    · rintro ⟨d, hd, hpos⟩
      exact ⟨d, (hsame s hs d).mp hd, (ih (hclosed s hs d hd)).mp hpos⟩
    · rintro ⟨d, hd, hpos⟩
      have hd := (hsame s hs d).mpr hd
      exact ⟨d, hd, (ih (hclosed s hs d hd)).mpr hpos⟩

theorem distance_congr (t : V) (n : ℕ) : Distance out s t n ↔ Distance out' s t n := by
  unfold Distance
  simp only [walkCount_pos_congr hclosed hsame hs]

theorem reaches_congr (t : V) : Reaches out s t ↔ Reaches out' s t := by
  unfold Reaches
  simp only [walkCount_pos_congr hclosed hsame hs]

end Edges

section Order
variable (hclosed : Closed out N) (hperm : ∀ v ∈ N, (out v).Perm (out' v)) (hs : s ∈ N)
include hclosed hperm hs

/-- With the destinations in another order there are the same walks. -/
theorem walks_perm (n : ℕ) (t : V) : (walks out n s t).Perm (walks out' n s t) := by
  induction n generalizing s with
  | zero => exact .rfl
  | succ n ih =>
    have hrest (d : V) (hd : d ∈ out s) : ((walks out n d t).map (s :: ·)).Perm
        ((walks out' n d t).map (s :: ·)) := (ih (hclosed s hs d hd)).map _
    exact (List.Perm.flatMap_left _ hrest).trans ((hperm s hs).flatMap_right _)

theorem shortestPaths_perm (t : V) : (shortestPaths out s t).Perm (shortestPaths out' s t) := by
  unfold shortestPaths
  have hsame (n : ℕ) := walkCount_pos_congr hclosed (fun v hv d => (hperm v hv).mem_iff) hs n t
  simp only [hsame]
  exact walks_perm hclosed hperm hs _ t

theorem pathCount_perm (t : V) : pathCount out s t = pathCount out' s t :=
  (shortestPaths_perm hclosed hperm hs t).length_eq

theorem pathCountThrough_perm (t v : V) : pathCountThrough out s t v = pathCountThrough out' s t v :=
  (shortestPaths_perm hclosed hperm hs t).countP_eq _

end Order

end Congr

end ShortestPaths
