import GraphLogSketch.Scea.BetweennessCentrality

/-! What betweenness centrality does whatever the number of shortest paths, which words may not hold:
the levels are right and no assertion fails, but counts wrap. -/
namespace Scea.BetweennessCentrality
open LevelSearch ShortestPaths
open scoped UInt64.CommRing

section Assertions
variable {σ : Type} {G : MutableGraph σ} {g : σ} {r : Sssp} {level : ℕ}

/-- The assertion of the backward pass is all that can fail in it. -/
theorem foldlM_visit_isSome {worklist : List ℕ} (h : ∀ n ∈ worklist, r.distance n = level)
    (s : Scores) : ∃ s', worklist.foldlM (fun s n => visit G g r level n s) s = some s' := by
  induction worklist generalizing s with
  | nil => exact ⟨s, rfl⟩
  | cons n worklist ih =>
    rw [List.foldlM_cons, visit, if_pos (h n List.mem_cons_self)]
    exact ih (fun m hm => h m (List.mem_cons_of_mem n hm)) _

theorem backward_isSome {order : ℕ → List ℕ → List ℕ}
    (hperm : ∀ level worklist, (order level worklist).Perm worklist)
    (h : ∀ k ≤ level, ∀ n ∈ r.stackOfWorklists.getD k [], r.distance n = k) (s : Scores) :
    ∃ s', backward G g order r level s = some s' := by
  induction level generalizing s with
  | zero => exact ⟨s, rfl⟩
  | succ level ih =>
    have hlevel (n : ℕ)
        (hn : n ∈ order (level + 1) (r.stackOfWorklists.getD (level + 1) [])) :
        r.distance n = level + 1 := h (level + 1) le_rfl n ((hperm _ _).mem_iff.mp hn)
    obtain ⟨s', hs'⟩ := foldlM_visit_isSome (G := G) (g := g) hlevel s
    obtain ⟨s'', hs''⟩ := ih (fun k hk => h k (Nat.le_succ_of_le hk)) s'
    refine ⟨s'', ?_⟩
    rw [backward]
    simp only [hs', Option.bind_eq_bind, Option.bind_some]
    exact hs''

variable (hclosed : WithinGraph G g) (hsize : 8 * G.size g ≤ 2 ^ 64)
include hclosed hsize

theorem addSource_isSome {src : ℕ} (hsrc : src < G.size g) (interleaving : Interleaving)
    (old : ℕ → ℚ) : ∃ scores, addSource G g interleaving old src = some scores := by
  obtain ⟨r, last, hrun, h, -⟩ := levelSSSP_ended hclosed hsize hsrc (interleaving.picks src)
  have hlen := h.searched.length
  by_cases hlong : 3 ≤ r.stackOfWorklists.length
  · have hlevels (k : ℕ) (hk : k ≤ r.stackOfWorklists.length - 3) (n : ℕ)
        (hn : n ∈ r.stackOfWorklists.getD k []) : r.distance n = k :=
      (h.near ((h.mem_level (by omega)).mp hn)).1
    obtain ⟨s', hs'⟩ := backward_isSome (G := G) (g := g) (interleaving.perm src) hlevels
      ⟨fun _ => 0, old⟩
    refine ⟨s'.centralityScores, ?_⟩
    simp only [addSource, hrun, Option.bind_eq_bind, Option.bind_some, if_pos hlong, hs']
    rfl
  · refine ⟨old, ?_⟩
    simp only [addSource, hrun, Option.bind_eq_bind, Option.bind_some, if_neg hlong]
    rfl

theorem foldlM_addSource_isSome (interleaving : Interleaving) {sources : List ℕ}
    (hsources : ∀ src ∈ sources, src < G.size g) (old : ℕ → ℚ) :
    ∃ scores, sources.foldlM (addSource G g interleaving) old = some scores := by
  induction sources generalizing old with
  | nil => exact ⟨old, rfl⟩
  | cons src sources ih =>
    obtain ⟨scores, hscores⟩ :=
      addSource_isSome hclosed hsize (hsources src List.mem_cons_self) interleaving old
    rw [List.foldlM_cons, hscores]
    exact ih (fun s hs => hsources s (List.mem_cons_of_mem src hs)) scores

end Assertions

/-- Whatever the interleavings, the worklists are the levels of the search, the distances are exact,
and no assertion fails in either pass. -/
theorem levelSSSP_worklists {σ : Type} (G : MutableGraph σ) (g : σ) (hclosed : WithinGraph G g)
    (hsize : 8 * G.size g ≤ 2 ^ 64) :
    (∀ src < G.size g, ∀ picks, ∃ r,
      levelSSSP G g picks src (fun _ => infinity) (fun _ => 0) = some r ∧
      (∀ k < r.stackOfWorklists.length, (r.stackOfWorklists.getD k []).Nodup ∧
        ∀ v, v ∈ r.stackOfWorklists.getD k [] ↔ Distance (G.forEachEdge g) src v k) ∧
      (∀ k < r.stackOfWorklists.length,
        r.stackOfWorklists.getD k [] = [] ↔ k + 1 = r.stackOfWorklists.length) ∧
      (∀ v k, Distance (G.forEachEdge g) src v k →
        r.distance v = k ∧ k < r.stackOfWorklists.length) ∧
      ∀ v, ¬ Reaches (G.forEachEdge g) src v → r.distance v = infinity) ∧
    ∀ (interleaving : Interleaving) (shuffle : List ℕ → List ℕ) (numSrc : ℕ),
      (∀ l, (shuffle l).Perm l) → ∃ scores, compute G g interleaving shuffle numSrc = some scores := by
  constructor
  · intro src hsrc picks
    obtain ⟨r, last, hrun, h, -⟩ := levelSSSP_ended hclosed hsize hsrc picks
    refine ⟨r, hrun, ?_⟩
    rw [h.searched.length]
    refine ⟨fun k hk => ?_, fun k hk => ⟨fun hempty => ?_, fun heq => ?_⟩, fun v k hv => ?_,
      fun v hv => h.distance_of_not_reaches hv⟩
    · have hk := Nat.le_of_lt_succ hk
      exact ⟨h.nodup_level hk, fun v => h.mem_level hk⟩
    · by_contra hne
      exact h.searched.nonempty k (by omega) hempty
    · obtain rfl : k = last := by omega
      exact h.empty
    · exact ⟨(h.near hv).1, Nat.lt_succ_of_lt (h.lt_last hv)⟩
  · intro interleaving shuffle numSrc hshuffle
    exact foldlM_addSource_isSome hclosed hsize interleaving
      (fun src hsrc => mem_selectSources hshuffle hsrc) _

theorem levelSSSP_worklists_row : ∃ r,
    levelSSSP adjGraph rowGraph (fun _ => [1, 0]) 1 (fun _ => infinity) (fun _ => 0) = some r ∧
      (∀ k < r.stackOfWorklists.length, (r.stackOfWorklists.getD k []).Nodup ∧
        ∀ v, v ∈ r.stackOfWorklists.getD k [] ↔ Distance (adjGraph.forEachEdge rowGraph) 1 v k) := by
  obtain ⟨r, hrun, hlevels, -⟩ := (levelSSSP_worklists adjGraph rowGraph rowGraph_within
    (by decide)).1 1 (by decide) fun _ => [1, 0]
  exact ⟨r, hrun, hlevels⟩

/-- Path counts are exact up to a multiple of `2 ^ 64`. A vertex has a distance, and can be divided by
its count, only if it is reached. -/
theorem levelSSSP_count {σ : Type} (G : MutableGraph σ) (g : σ) (hclosed : WithinGraph G g)
    (hsize : 8 * G.size g ≤ 2 ^ 64) (src : ℕ) (hsrc : src < G.size g) (picks : ℕ → List ℕ) :
    ∃ r, levelSSSP G g picks src (fun _ => infinity) (fun _ => 0) = some r ∧
      ∀ v, (r.distance v ≠ infinity ↔ Reaches (G.forEachEdge g) src v) ∧
        (Reaches (G.forEachEdge g) src v →
          (r.shortestPathCount v).toNat = pathCount (G.forEachEdge g) src v % 2 ^ 64 ∧
          (pathCount (G.forEachEdge g) src v < 2 ^ 64 →
            (r.shortestPathCount v).toNat = pathCount (G.forEachEdge g) src v ∧
            r.shortestPathCount v ≠ 0)) := by
  obtain ⟨r, last, hrun, h, hlast⟩ := levelSSSP_ended hclosed hsize hsrc picks
  refine ⟨r, hrun, fun v => ⟨⟨fun hne => ?_, fun hv => ?_⟩, fun hv => ?_⟩⟩
  · by_contra hv
    exact hne (h.distance_of_not_reaches hv)
  · obtain ⟨m, hm⟩ := hv.exists_distance
    have hlt := h.lt_last hm
    have heq := (h.near hm).1
    omega
  · obtain ⟨m, hm⟩ := hv.exists_distance
    have hcount : (r.shortestPathCount v).toNat = pathCount (G.forEachEdge g) src v % 2 ^ 64 := by
      rw [(h.near hm).2]
      rfl
    refine ⟨hcount, fun hfits => ?_⟩
    rw [Nat.mod_eq_of_lt hfits] at hcount
    refine ⟨hcount, fun hzero => ?_⟩
    have hpos := hm.pathCount_pos
    rw [← hcount, hzero] at hpos
    exact absurd hpos (by decide)

theorem levelSSSP_count_row : ∃ r,
    levelSSSP adjGraph rowGraph (fun _ => []) 0 (fun _ => infinity) (fun _ => 0) = some r ∧
      ∀ v, Reaches (adjGraph.forEachEdge rowGraph) 0 v → (r.shortestPathCount v).toNat =
        pathCount (adjGraph.forEachEdge rowGraph) 0 v % 2 ^ 64 := by
  obtain ⟨r, hrun, h⟩ := levelSSSP_count adjGraph rowGraph rowGraph_within (by decide) 0
    (by decide) fun _ => []
  exact ⟨r, hrun, fun v hv => ((h v).2 hv).1⟩

/-- Vertices in a row, each with two edges to the next one. -/
def doubledRow (m : ℕ) : AdjGraph :=
  ⟨(List.range (m + 1)).map fun i => if i < m then [i + 1, i + 1] else []⟩

theorem doubledRow_out (m i : ℕ) :
    adjGraph.forEachEdge (doubledRow m) i = if i < m then [i + 1, i + 1] else [] := by
  show ((List.range (m + 1)).map _).getD i [] = _
  rw [List.getD_eq_getElem?_getD, List.getElem?_map]
  by_cases hi : i < m + 1
  · rw [List.getElem?_range hi]
    rfl
  · rw [List.getElem?_eq_none (by rw [List.length_range]; omega), if_neg (by omega)]
    rfl

theorem doubledRow_size (m : ℕ) : adjGraph.size (doubledRow m) = m + 1 := by
  show ((List.range (m + 1)).map _).length = _
  rw [List.length_map, List.length_range]

theorem doubledRow_within (m : ℕ) : WithinGraph adjGraph (doubledRow m) := by
  intro v _ d hd
  rw [doubledRow_out] at hd
  rw [Finset.mem_range, doubledRow_size]
  split_ifs at hd with hv
  · simp only [List.mem_cons, List.not_mem_nil, or_false, or_self] at hd
    omega
  · exact absurd hd List.not_mem_nil

/-- Every edge of the row doubles the number of walks. -/
theorem walkCount_doubledRow {m i j : ℕ} (n : ℕ) (hj : j ≤ m) :
    walkCount (adjGraph.forEachEdge (doubledRow m)) n i j = if j = i + n then 2 ^ n else 0 := by
  induction n generalizing i with
  | zero =>
    rw [walkCount_zero, Nat.add_zero]
    simp only [eq_comm, pow_zero]
  | succ n ih =>
    rw [walkCount_succ, doubledRow_out]
    by_cases hi : i < m
    · rw [if_pos hi]
      simp only [List.map_cons, List.map_nil, List.sum_cons, List.sum_nil, ih, Nat.add_zero]
      rw [show i + 1 + n = i + (n + 1) by omega]
      split_ifs <;> omega
    · rw [if_neg hi, if_neg (by omega)]
      rfl

theorem distance_doubledRow {m j : ℕ} (hj : j ≤ m) :
    Distance (adjGraph.forEachEdge (doubledRow m)) 0 j j := by
  constructor
  · rw [walkCount_doubledRow j hj, if_pos (Nat.zero_add j).symm]
    exact Nat.two_pow_pos j
  · intro n hn
    rw [walkCount_doubledRow n hj] at hn
    split_ifs at hn with heq
    · omega
    · exact absurd hn (lt_irrefl 0)

/-- At the end of a row of 64 doubled edges the count is back at 0, and the dependency pass divides by
it when it visits the vertex before. -/
theorem levelSSSP_doubledRow : ∃ r,
    levelSSSP adjGraph (doubledRow 64) (fun _ => []) 0 (fun _ => infinity) (fun _ => 0) = some r ∧
      pathCount (adjGraph.forEachEdge (doubledRow 64)) 0 64 = 2 ^ 64 ∧
      r.shortestPathCount 64 = 0 ∧ r.distance 64 = 64 ∧
      63 ∈ r.stackOfWorklists.getD 63 [] ∧ 63 ≤ r.stackOfWorklists.length - 3 ∧
      64 ∈ adjGraph.forEachEdge (doubledRow 64) 63 := by
  have hsize : 8 * adjGraph.size (doubledRow 64) ≤ 2 ^ 64 := by
    rw [doubledRow_size]
    decide
  have hsrc : 0 < adjGraph.size (doubledRow 64) := by
    rw [doubledRow_size]
    decide
  obtain ⟨r, last, hrun, h, -⟩ := levelSSSP_ended (doubledRow_within 64) hsize hsrc fun _ => []
  have hpaths : pathCount (adjGraph.forEachEdge (doubledRow 64)) 0 64 = 2 ^ 64 := by
    rw [(distance_doubledRow le_rfl).pathCount, walkCount_doubledRow 64 le_rfl, if_pos rfl]
  have hend := h.lt_last (distance_doubledRow (m := 64) le_rfl)
  have hlen := h.searched.length
  refine ⟨r, hrun, hpaths, ?_, (h.near (distance_doubledRow le_rfl)).1,
    (h.mem_level (by omega)).mpr (distance_doubledRow (by decide)), by omega, ?_⟩
  · rw [(h.near (distance_doubledRow le_rfl)).2, hpaths]
    rfl
  · rw [doubledRow_out]
    decide

end Scea.BetweennessCentrality
