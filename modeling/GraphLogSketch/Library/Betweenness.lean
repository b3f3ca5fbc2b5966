import GraphLogSketch.Library.ShortestPaths

/-! Betweenness: how often a vertex lies on the shortest paths between others. What a source
contributes to a vertex can be computed from what it contributes to the vertices one step further. -/
namespace Betweenness
open ShortestPaths
variable {V : Type*} [DecidableEq V] (out : V → List V) (N : Finset V)

open scoped Classical in
/-- The share of the shortest paths from `s` to `t` that pass through `v` in between. -/
noncomputable def share (s t v : V) : ℚ :=
  if t ≠ s ∧ t ≠ v ∧ Reaches out s t then (pathCountThrough out s t v : ℚ) / pathCount out s t
  else 0

/-- What a source contributes to a vertex, over all targets. -/
noncomputable def dependency (s v : V) : ℚ := ∑ t ∈ N, share out s t v

noncomputable def betweenness (sources : List V) (v : V) : ℚ :=
  ((sources.filter (· ≠ v)).map fun s => dependency out N s v).sum

open scoped Classical in
/-- The share of the shortest paths from `s` to `t` that go on from `v` after `j` edges, for each
shortest way to `v`. -/
noncomputable def onward (s : V) (j : ℕ) (v t : V) : ℚ :=
  if ∃ m, j ≤ m ∧ Distance out s t m then
    (walkCount out (sInf {n | 0 < walkCount out n s t} - j) v t : ℚ) / pathCount out s t
  else 0

variable {out N} {s t u v d : V} {j k m : ℕ}

theorem share_of_not_reaches (h : ¬ Reaches out s t) : share out s t v = 0 := if_neg fun hc => h hc.2.2

theorem onward_of_not_reaches (h : ¬ Reaches out s t) : onward out s j v t = 0 :=
  if_neg fun ⟨_, _, hm⟩ => h hm.reaches

theorem onward_eq (ht : Distance out s t m) : onward out s j v t =
    if j ≤ m then (walkCount out (m - j) v t : ℚ) / pathCount out s t else 0 := by
  by_cases hj : j ≤ m
  · rw [onward, if_pos ⟨m, hj, ht⟩, if_pos hj, ht.sInf_eq]
  · rw [onward, if_neg, if_neg hj]
    rintro ⟨n, hn, hd⟩
    rw [hd.unique ht] at hn
    exact hj hn

/-- Only targets further away than `v` have a share. -/
theorem share_eq (ht : Distance out s t m) (hv : Distance out s v k) (hk : 0 < k) :
    share out s t v = if k < m then
      pathCount out s v * ((walkCount out (m - k) v t : ℚ) / pathCount out s t) else 0 := by
  by_cases hkm : k < m
  · have hts : t ≠ s := by
      rintro rfl
      have h0 := ht.unique (distance_zero_iff.mpr rfl)
      omega
    have htv : t ≠ v := by
      rintro rfl
      have h0 := ht.unique hv
      omega
    rw [if_pos hkm, share, if_pos ⟨hts, htv, ht.reaches⟩, pathCountThrough_eq ht hv hkm.le,
      Nat.cast_mul, mul_div_assoc]
  · rw [if_neg hkm, share]
    split_ifs with hc
    · have hzero : pathCountThrough out s t v = 0 := by
        rcases (not_lt.mp hkm).lt_or_eq with hlt | heq
        · apply pathCountThrough_eq_zero
          intro k' hk' m' hm'
          rw [hk'.unique hv, hm'.unique ht]
          exact hlt
        · rw [pathCountThrough_eq ht hv heq.ge, heq, Nat.sub_self, walkCount_zero,
            if_neg (Ne.symm hc.2.1), mul_zero]
      rw [hzero, Nat.cast_zero, zero_div]
    · rfl

theorem dependency_of_not_reaches (h : ¬ Reaches out s v) : dependency out N s v = 0 := by
  apply Finset.sum_eq_zero
  intro t _
  rw [share]
  split_ifs
  · rw [pathCountThrough_eq_zero fun k hk => absurd hk.reaches h, Nat.cast_zero, zero_div]
  · rfl

/-- The shares of `v` are those of its edges. -/
theorem share_eq_sum (hv : Distance out s v k) (hk : 0 < k) (t : V) :
    share out s t v =
      pathCount out s v * ((out v).map fun d => onward out s (k + 1) d t).sum := by
  by_cases hr : Reaches out s t
  · obtain ⟨m, ht⟩ := hr.exists_distance
    simp only [share_eq ht hv hk, onward_eq ht]
    by_cases hkm : k < m
    · have hm : m - k = m - (k + 1) + 1 := by omega
      simp only [if_pos hkm, if_pos (Nat.succ_le_of_lt hkm), hm, walkCount_succ, div_eq_mul_inv,
        List.sum_map_mul_right, Nat.cast_list_sum, List.map_map]
      rfl
    · simp [hkm]
  · simp [share_of_not_reaches hr, onward_of_not_reaches hr]

/-- What goes on from a vertex that is `j` edges away: the paths that end there, and its shares. -/
theorem sum_onward (hd : Distance out s d j) (hj : 0 < j) (hN : d ∈ N) :
    ∑ t ∈ N, onward out s j d t = (1 + dependency out N s d) / pathCount out s d := by
  have hcount : (pathCount out s d : ℚ) ≠ 0 := Nat.cast_ne_zero.mpr hd.pathCount_pos.ne'
  have hterm (t : V) : onward out s j d t =
      (if t = d then (pathCount out s d : ℚ)⁻¹ else 0) +
        (pathCount out s d : ℚ)⁻¹ * share out s t d := by
    by_cases hr : Reaches out s t
    · obtain ⟨m, ht⟩ := hr.exists_distance
      rw [onward_eq ht, share_eq ht hd hj]
      rcases Nat.lt_trichotomy j m with hlt | rfl | hgt
      · have htd : t ≠ d := by
          rintro rfl
          have h0 := ht.unique hd
          omega
        rw [if_pos hlt.le, if_neg htd, if_pos hlt, zero_add, inv_mul_cancel_left₀ hcount]
      · rw [if_pos le_rfl, if_neg (lt_irrefl j), mul_zero, add_zero, Nat.sub_self, walkCount_zero]
        by_cases htd : t = d
        · rw [if_pos htd.symm, if_pos htd, htd, Nat.cast_one, one_div]
        · rw [if_neg (Ne.symm htd), if_neg htd, Nat.cast_zero, zero_div]
      · have htd : t ≠ d := by
          rintro rfl
          have h0 := ht.unique hd
          omega
        rw [if_neg (by omega), if_neg htd, if_neg (by omega), mul_zero, add_zero]
    · have htd : t ≠ d := by
        rintro rfl
        exact hr hd.reaches
      rw [onward_of_not_reaches hr, share_of_not_reaches hr, if_neg htd, mul_zero, add_zero]
  rw [Finset.sum_congr rfl fun t _ => hterm t, Finset.sum_add_distrib, Finset.sum_ite_eq',
    if_pos hN, ← Finset.mul_sum, ← dependency, div_eq_inv_mul, mul_add, mul_one]

/-- Nothing goes on from a vertex that could have been reached earlier. -/
theorem onward_eq_zero (hd : Distance out s d k) (hkj : k < j) (t : V) :
    onward out s j d t = 0 := by
  by_cases hr : Reaches out s t
  · obtain ⟨m, ht⟩ := hr.exists_distance
    rw [onward_eq ht]
    split_ifs with hjm
    · have hzero : walkCount out (m - j) d t = 0 := by
        by_contra hpos
        have hle := ht.2 _ (walkCount_trans hd.1 (Nat.pos_of_ne_zero hpos))
        omega
      rw [hzero, Nat.cast_zero, zero_div]
    · rfl
  · exact onward_of_not_reaches hr

open scoped Classical in
/-- The dependency of a vertex from the dependencies of the vertices its edges lead away to. -/
theorem dependency_eq_sum (hclosed : Closed out N) (hN : v ∈ N) (hv : Distance out s v k)
    (hk : 0 < k) : dependency out N s v = pathCount out s v *
      ((out v).map fun d => if Distance out s d (k + 1) then
        (1 + dependency out N s d) / pathCount out s d else 0).sum := by
  have hedge (d : V) (hd : d ∈ out v) : ∑ t ∈ N, onward out s (k + 1) d t =
      if Distance out s d (k + 1) then (1 + dependency out N s d) / pathCount out s d else 0 := by
    split_ifs with hdist
    · exact sum_onward hdist (Nat.succ_pos k) (hclosed v hN d hd)
    · obtain ⟨m, hm, hdist'⟩ := hv.edge hd
      have hne : m ≠ k + 1 := by
        rintro rfl
        exact hdist hdist'
      exact Finset.sum_eq_zero fun t _ => onward_eq_zero hdist' (by omega) t
  rw [dependency, Finset.sum_congr rfl fun t _ => share_eq_sum hv hk t, ← Finset.mul_sum]
  congr 1
  rw [← List.map_congr_left hedge]
  induction out v with
  | nil => simp
  | cons d ds ih => simp only [List.map_cons, List.sum_cons, Finset.sum_add_distrib, ih]

/-- Sources that each add what the vertices depend on sum up to the betweenness. -/
theorem foldlM_dependency {add : (V → ℚ) → V → Option (V → ℚ)} {sources : List V}
    (hadd : ∀ s ∈ sources, ∀ old, ∃ scores, add old s = some scores ∧
      ∀ v, scores v = old v + if s = v then 0 else dependency out N s v) (old : V → ℚ) :
    ∃ scores, sources.foldlM add old = some scores ∧
      ∀ v, scores v = old v + betweenness out N sources v := by
  induction sources generalizing old with
  | nil => exact ⟨old, rfl, fun v => by simp [betweenness]⟩
  | cons s sources ih =>
    obtain ⟨scores₁, hadd₁, hscores₁⟩ := hadd s List.mem_cons_self old
    obtain ⟨scores, hrun, hscores⟩ := ih (fun s' hs' => hadd s' (List.mem_cons_of_mem s hs')) scores₁
    refine ⟨scores, ?_, fun v => ?_⟩
    · rw [List.foldlM_cons, hadd₁]
      exact hrun
    · rw [hscores v, hscores₁ v, add_assoc, betweenness, betweenness]
      congr 1
      by_cases heq : s = v
      · simp [heq]
      · simp [heq]

open scoped Classical in
/-- The order of the destinations does not matter. -/
theorem betweenness_perm {out' : V → List V} {N : Finset V} (hclosed : Closed out N)
    (hperm : ∀ v ∈ N, (out v).Perm (out' v)) {sources : List V} (hsources : ∀ s ∈ sources, s ∈ N)
    (v : V) : betweenness out N sources v = betweenness out' N sources v := by
  have hshare (s : V) (hs : s ∈ N) (t : V) : share out s t v = share out' s t v := by
    have hreaches := reaches_congr hclosed (fun v hv d => (hperm v hv).mem_iff) hs t
    rw [share, share, pathCount_perm hclosed hperm hs, pathCountThrough_perm hclosed hperm hs]
    exact if_congr (and_congr_right' (and_congr_right' hreaches)) rfl rfl
  unfold betweenness
  congr 1
  apply List.map_congr_left
  intro s hs
  exact Finset.sum_congr rfl fun t _ => hshare s (hsources s (List.mem_of_mem_filter hs)) t

end Betweenness
