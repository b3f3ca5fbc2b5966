import GraphLogSketch.Library.ShortestPaths

/-! Breadth-first search one level at a time. From the vertices at distance `k` every edge is looked
at once, in any order: its destination is claimed if it has no distance yet, and then counts the
shortest paths that come along the edge. -/
namespace LevelSearch
open ShortestPaths
variable {V C : Type*} [DecidableEq V] [AddCommMonoidWithOne C]

/-- Distances and path counts so far, the vertices claimed for the next level, and the edges that are
still to be looked at. -/
structure State (V C : Type*) where
  distance : V → ℕ
  count : V → C
  claimed : Multiset V
  pending : Multiset (V × V)

variable (out : V → List V) (s : V) (infinity k : ℕ)

/-- No walk of `k` edges or less leads to `v`. -/
def Beyond (v : V) : Prop := ∀ m ≤ k, ¬ Distance out s v m

/-- The paths that come along the pending edges to `v`. -/
def coming (pending : Multiset (V × V)) (v : V) : C :=
  (pending.map fun e => if e.2 = v then (walkCount out k s e.1 : C) else 0).sum

/-- Everything up to distance `k` is known and nothing beyond. -/
structure Complete (distance : V → ℕ) (count : V → C) : Prop where
  near : ∀ {v m}, Distance out s v m → m ≤ k → distance v = m ∧ count v = walkCount out m s v
  beyond : ∀ {v}, Beyond out s k v → distance v = infinity ∧ count v = 0

/-- The vertices at distance `k`, each once. -/
structure IsLevel (level : Multiset V) : Prop where
  nodup : level.Nodup
  mem_iff : ∀ {v}, v ∈ level ↔ Distance out s v k

/-- What holds while the edges from distance `k` are looked at. -/
structure Inv (st : State V C) : Prop where
  near : ∀ {v m}, Distance out s v m → m ≤ k →
    st.distance v = m ∧ st.count v = walkCount out m s v
  beyond : ∀ {v}, Beyond out s k v →
    st.distance v = infinity ∨ st.distance v = k + 1 ∧ Distance out s v (k + 1)
  claimed_nodup : st.claimed.Nodup
  claimed_iff : ∀ {v}, v ∈ st.claimed ↔ st.distance v = k + 1
  pending : ∀ e ∈ st.pending, Distance out s e.1 k ∧ e.2 ∈ out e.1
  unseen : ∀ {v}, Distance out s v (k + 1) → st.distance v = infinity → ∃ e ∈ st.pending, e.2 = v
  counting : ∀ {v}, Beyond out s k v →
    st.count v + coming out s k st.pending v = walkCount out (k + 1) s v

variable {out s infinity k} {distance : V → ℕ} {count : V → C} {claimed : Multiset V}
  {pending : Multiset (V × V)} {e : V × V} {u v : V}

theorem beyond_of_distance {m : ℕ} (hv : Distance out s v m) (hm : k < m) : Beyond out s k v := by
  intro j hj hd
  have hjm := hd.unique hv
  omega

theorem near_or_beyond (k : ℕ) (v : V) : (∃ m ≤ k, Distance out s v m) ∨ Beyond out s k v := by
  by_cases h : ∃ m ≤ k, Distance out s v m
  · exact Or.inl h
  · exact Or.inr fun m hm hd => h ⟨m, hm, hd⟩

/-- An edge from distance `k` to beyond leads to distance `k + 1`. -/
theorem edge_beyond (hu : Distance out s u k) (hv : v ∈ out u) (hb : Beyond out s k v) :
    Distance out s v (k + 1) := by
  obtain ⟨m, hm, hd⟩ := hu.edge hv
  have hmk : ¬ m ≤ k := fun hle => hb m hle hd
  have heq : m = k + 1 := by omega
  exact heq ▸ hd

theorem walkCount_eq_zero_of_beyond {n : ℕ} (hb : Beyond out s n v) : walkCount out n s v = 0 := by
  by_contra hpos
  have hpos := Nat.pos_of_ne_zero hpos
  obtain ⟨m, hm⟩ := Reaches.exists_distance ⟨n, hpos⟩
  exact hb m (hm.2 n hpos) hm

theorem coming_cons (e : V × V) (pending : Multiset (V × V)) (v : V) :
    (coming out s k (e ::ₘ pending) v : C) =
      (if e.2 = v then (walkCount out k s e.1 : C) else 0) + coming out s k pending v := by
  rw [coming, Multiset.map_cons, Multiset.sum_cons, ← coming]

namespace Inv

/-- The destination of a pending edge gets its distance. -/
theorem claim (h : Inv out s infinity k ⟨distance, count, claimed, pending⟩) (hk : k + 1 < infinity)
    (he : e ∈ pending) (hd : distance e.2 = infinity) :
    Inv out s infinity k
      ⟨Function.update distance e.2 (k + 1), count, e.2 ::ₘ claimed, pending⟩ := by
  have hbeyond : Beyond out s k e.2 := by
    intro m hm hdist
    have heq : distance e.2 = m := (h.near hdist hm).1
    omega
  have hnew : e.2 ∉ claimed := by
    intro hmem
    have heq : distance e.2 = k + 1 := h.claimed_iff.mp hmem
    omega
  exact {
    near := by
      intro v m hv hm
      have hne : v ≠ e.2 := by
        rintro rfl
        exact hbeyond m hm hv
      exact ⟨(Function.update_of_ne hne _ _).trans (h.near hv hm).1, (h.near hv hm).2⟩
    beyond := by
      intro v hv
      by_cases hve : v = e.2
      · subst hve
        obtain ⟨hu, hmem⟩ := h.pending e he
        exact Or.inr ⟨Function.update_self .., edge_beyond hu hmem hv⟩
      · show Function.update distance e.2 (k + 1) v = _ ∨ Function.update distance e.2 (k + 1) v = _ ∧ _
        rw [Function.update_of_ne hve]
        exact h.beyond hv
    claimed_nodup := Multiset.nodup_cons.mpr ⟨hnew, h.claimed_nodup⟩
    claimed_iff := by
      intro v
      show v ∈ e.2 ::ₘ claimed ↔ Function.update distance e.2 (k + 1) v = _
      by_cases hve : v = e.2
      · subst hve
        simp
      · rw [Function.update_of_ne hve, Multiset.mem_cons, or_iff_right hve]
        exact h.claimed_iff
    pending := h.pending
    unseen := by
      intro v hv hinf
      apply h.unseen hv
      have hve : v ≠ e.2 := by
        rintro rfl
        have hval : k + 1 = infinity := (Function.update_self ..).symm.trans hinf
        omega
      exact (Function.update_of_ne hve _ _).symm.trans hinf
    counting := h.counting }

/-- A claimed destination counts the paths along the edge. -/
theorem settle (h : Inv out s infinity k ⟨distance, count, claimed, e ::ₘ pending⟩)
    (hk : k + 1 < infinity) (hd : distance e.2 = k + 1) :
    Inv out s infinity k ⟨distance,
      Function.update count e.2 (count e.2 + walkCount out k s e.1), claimed, pending⟩ where
  near := by
    intro v m hv hm
    have hnear := h.near hv hm
    have hne : v ≠ e.2 := by
      rintro rfl
      have heq : distance e.2 = m := hnear.1
      omega
    exact ⟨hnear.1, (Function.update_of_ne hne _ _).trans hnear.2⟩
  beyond := h.beyond
  claimed_nodup := h.claimed_nodup
  claimed_iff := h.claimed_iff
  pending e' he' := h.pending e' (Multiset.mem_cons_of_mem he')
  unseen := by
    intro v hv hinf
    obtain ⟨e', he', heq⟩ := h.unseen hv hinf
    rcases Multiset.mem_cons.mp he' with rfl | he'
    · have hinf : distance v = infinity := hinf
      rw [heq, hinf] at hd
      omega
    · exact ⟨e', he', heq⟩
  counting := by
    intro v hv
    have hcount := h.counting hv
    simp only [coming_cons] at hcount
    show Function.update count e.2 _ v + coming out s k pending v = _
    by_cases hve : v = e.2
    · subst hve
      rw [if_pos rfl, ← add_assoc] at hcount
      rw [Function.update_self]
      exact hcount
    · rw [if_neg (Ne.symm hve), zero_add] at hcount
      rw [Function.update_of_ne hve]
      exact hcount

/-- An edge to a vertex with a smaller distance counts for nothing. -/
theorem skip (h : Inv out s infinity k ⟨distance, count, claimed, e ::ₘ pending⟩)
    (hinf : distance e.2 ≠ infinity) (hd : distance e.2 ≠ k + 1) :
    Inv out s infinity k ⟨distance, count, claimed, pending⟩ where
  near := h.near
  beyond := h.beyond
  claimed_nodup := h.claimed_nodup
  claimed_iff := h.claimed_iff
  pending e' he' := h.pending e' (Multiset.mem_cons_of_mem he')
  unseen := by
    intro v hv hv'
    obtain ⟨e', he', heq⟩ := h.unseen hv hv'
    rcases Multiset.mem_cons.mp he' with rfl | he'
    · exact absurd hv' (heq ▸ hinf)
    · exact ⟨e', he', heq⟩
  counting := by
    intro v hv
    have hcount := h.counting hv
    have hne : e.2 ≠ v := by
      rintro rfl
      rcases h.beyond hv with hb | hb
      · exact hinf hb
      · exact hd hb.1
    simp only [coming_cons, if_neg hne, zero_add] at hcount
    exact hcount

/-- When no edge is left, the next distance is known as well. -/
theorem finish (h : Inv out s infinity k ⟨distance, count, claimed, 0⟩) (hk : k + 1 < infinity) :
    Complete out s infinity (k + 1) distance count ∧ IsLevel out s (k + 1) claimed := by
  have hnext {v : V} (hv : Distance out s v (k + 1)) : distance v = k + 1 := by
    rcases h.beyond (beyond_of_distance hv (Nat.lt_succ_self k)) with hinf | hd
    · obtain ⟨e, he, -⟩ := h.unseen hv hinf
      exact absurd he (Multiset.notMem_zero e)
    · exact hd.1
  have hcount {v : V} (hv : Beyond out s k v) : count v = walkCount out (k + 1) s v := by
    have hsum := h.counting hv
    rwa [coming, Multiset.map_zero, Multiset.sum_zero, add_zero] at hsum
  refine ⟨⟨?_, ?_⟩, ⟨h.claimed_nodup, ?_⟩⟩
  · intro v m hv hm
    rcases Nat.lt_or_eq_of_le hm with hlt | rfl
    · exact h.near hv (Nat.le_of_lt_succ hlt)
    · exact ⟨hnext hv, hcount (beyond_of_distance hv (Nat.lt_succ_self k))⟩
  · intro v hv
    have hbeyond : Beyond out s k v := fun m hm => hv m (Nat.le_succ_of_le hm)
    refine ⟨(h.beyond hbeyond).resolve_right fun hd => hv _ le_rfl hd.2, ?_⟩
    rw [hcount hbeyond, walkCount_eq_zero_of_beyond hv, Nat.cast_zero]
  · intro v
    refine h.claimed_iff.trans ⟨fun hd => ?_, hnext⟩
    have hd : distance v = k + 1 := hd
    rcases near_or_beyond k v with ⟨m, hm, hv⟩ | hb
    · have heq : distance v = m := (h.near hv hm).1
      omega
    · refine ((h.beyond hb).resolve_left fun hinf => ?_).2
      have hinf : distance v = infinity := hinf
      omega

end Inv

/-- At the start only the source is known. -/
theorem complete_zero (s : V) : Complete out s infinity 0
    (Function.update (fun _ => infinity) s 0) (Function.update (fun _ => (0 : C)) s 1) where
  near := by
    intro v m hv hm
    obtain rfl : m = 0 := Nat.le_zero.mp hm
    obtain rfl := distance_zero_iff.mp hv
    simp [walkCount_zero]
  beyond := by
    intro v hv
    have hne : v ≠ s := by
      rintro rfl
      exact hv 0 le_rfl (distance_zero_iff.mpr rfl)
    exact ⟨Function.update_of_ne hne _ _, Function.update_of_ne hne _ _⟩

theorem isLevel_zero (s : V) : IsLevel out s 0 {s} where
  nodup := Multiset.nodup_singleton s
  mem_iff := by
    intro v
    rw [Multiset.mem_singleton, distance_zero_iff, eq_comm]

/-- The edges from a level. -/
def edgesFrom (out : V → List V) (level : Multiset V) : Multiset (V × V) :=
  level.bind fun u => Multiset.ofList ((out u).map fun v => (u, v))

omit [DecidableEq V] in
theorem edgesFrom_cons (u : V) (level : Multiset V) : edgesFrom out (u ::ₘ level) =
    Multiset.ofList ((out u).map fun v => (u, v)) + edgesFrom out level := Multiset.cons_bind ..

omit [DecidableEq V] in
theorem mem_edgesFrom {level : Multiset V} {e : V × V} :
    e ∈ edgesFrom out level ↔ e.1 ∈ level ∧ e.2 ∈ out e.1 := by
  obtain ⟨u, v⟩ := e
  simp only [edgesFrom, Multiset.mem_bind, Multiset.mem_coe, List.mem_map, Prod.mk.injEq]
  constructor
  · rintro ⟨u, hu, v, hv, rfl, rfl⟩
    exact ⟨hu, hv⟩
  · rintro ⟨hu, hv⟩
    exact ⟨u, hu, v, hv, rfl, rfl⟩

theorem coming_edgesFrom (level : Multiset V) (v : V) :
    (coming out s k (edgesFrom out level) v : C) =
      ((level.map fun u => walkCount out k s u * (out u).count v).sum : ℕ) := by
  have hedges (u : V) (l : List V) : (((l.map fun v => (u, v)).map fun e =>
      if e.2 = v then (walkCount out k s e.1 : C) else 0).sum : C) =
        ((walkCount out k s u * l.count v : ℕ) : C) := by
    induction l with
    | nil => simp
    | cons d l ih =>
      rw [List.map_cons, List.map_cons, List.sum_cons, ih]
      by_cases hd : d = v
      · rw [if_pos hd, hd, List.count_cons_self, Nat.mul_succ, Nat.add_comm, Nat.cast_add]
      · rw [if_neg hd, zero_add, List.count_cons_of_ne hd]
  induction level using Multiset.induction with
  | empty => simp [coming, edgesFrom]
  | cons u level ih =>
    rw [edgesFrom_cons, coming, Multiset.map_add, Multiset.sum_add, Multiset.map_coe,
      Multiset.sum_coe, hedges, Multiset.map_cons, Multiset.sum_cons, Nat.cast_add, ← ih]
    rfl

section Start
variable {N : Finset V} {level : Multiset V}

/-- All walks one edge longer come along the edges from the level. -/
theorem sum_level (hclosed : Closed out N) (hs : s ∈ N) (hlevel : IsLevel out s k level)
    (hv : Beyond out s k v) :
    (level.map fun u => walkCount out k s u * (out u).count v).sum = walkCount out (k + 1) s v := by
  rw [walkCount_succ_last hclosed hs]
  show ∑ u ∈ ⟨level, hlevel.nodup⟩, walkCount out k s u * (out u).count v = _
  apply Finset.sum_subset
  · intro u hu
    exact hclosed.mem_of_walk hs (hlevel.mem_iff.mp hu).1
  · intro u _ hu
    by_contra hne
    obtain ⟨hwalk, hcount⟩ := Nat.mul_ne_zero_iff.mp hne
    obtain ⟨m, hm⟩ := Reaches.exists_distance ⟨k, Nat.pos_of_ne_zero hwalk⟩
    have hmk := hm.2 k (Nat.pos_of_ne_zero hwalk)
    rcases hmk.lt_or_eq with hlt | rfl
    · obtain ⟨j, hj, hdist⟩ := hm.edge (List.count_pos_iff.mp (Nat.pos_of_ne_zero hcount))
      exact hv j (by omega) hdist
    · exact hu (hlevel.mem_iff.mpr hm)

/-- A complete level is where the next one starts. -/
theorem Complete.start (h : Complete out s infinity k distance count) (hclosed : Closed out N)
    (hs : s ∈ N) (hk : k + 1 < infinity) (hlevel : IsLevel out s k level) :
    Inv out s infinity k ⟨distance, count, 0, edgesFrom out level⟩ where
  near := h.near
  beyond hv := Or.inl (h.beyond hv).1
  claimed_nodup := Multiset.nodup_zero
  claimed_iff := by
    intro v
    refine ⟨fun hv => absurd hv (Multiset.notMem_zero v), fun hd => ?_⟩
    have hd : distance v = k + 1 := hd
    rcases near_or_beyond k v with ⟨m, hm, hv⟩ | hb
    · have heq := (h.near hv hm).1
      omega
    · have hinf := (h.beyond hb).1
      omega
  pending e he := by
    obtain ⟨hu, hv⟩ := mem_edgesFrom.mp he
    exact ⟨hlevel.mem_iff.mp hu, hv⟩
  unseen := by
    intro v hv _
    obtain ⟨u, hu, hmem⟩ := hv.pred
    exact ⟨(u, v), mem_edgesFrom.mpr ⟨hlevel.mem_iff.mpr hu, hmem⟩, rfl⟩
  counting := by
    intro v hv
    show count v + coming out s k (edgesFrom out level) v = _
    rw [(h.beyond hv).2, zero_add, coming_edgesFrom, sum_level hclosed hs hlevel hv]

/-- An empty level ends the search: nothing lies beyond it. -/
theorem lt_of_isLevel_zero (h : IsLevel out s k 0) {m : ℕ} (hv : Distance out s v m) : m < k := by
  by_contra hkm
  obtain ⟨u, hu⟩ := hv.exists_at (not_lt.mp hkm)
  exact Multiset.notMem_zero u (h.mem_iff.mpr hu)

end Start

end LevelSearch
