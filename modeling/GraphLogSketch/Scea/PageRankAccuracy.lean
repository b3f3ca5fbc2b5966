import GraphLogSketch.Library.DampedFixedPoint
import GraphLogSketch.Scea.PageRank

/-! What the ranks converge to: the only ranks that an iteration leaves as they are. The loop stops
close to them, in whatever order the additions arrive. -/
namespace Scea.PageRank
open DampedPush

/-- An iteration leaves these ranks as they are. -/
def IsLimit {σ : Type} (G : MutableGraph σ) (g : σ) (rank : ℕ → ℚ) : Prop :=
  Stationary (G.forEachEdge g) (Finset.range (G.size g)) ((1 - dampingFactor) / G.size g)
    dampingFactor rank

section Limit
variable {σ : Type} {G : MutableGraph σ} {g : σ}

theorem dampingFactor_lt_one : dampingFactor < 1 := by
  unfold dampingFactor
  norm_num

theorem IsLimit.isDistribution (hsize : 0 < G.size g) (hg : Multigraph G g) {rank : ℕ → ℚ}
    (hlimit : IsLimit G g rank) : IsDistribution G g rank := by
  have hfloor := hlimit.base_le hg.within dampingFactor_nonneg dampingFactor_lt_one
    (base_nonneg (G.size g))
  have hnonneg : ∀ v ∈ Finset.range (G.size g), 0 ≤ rank v := fun v hv =>
    (base_nonneg (G.size g)).trans (hfloor v hv)
  have hpos : (0 : ℚ) < G.size g := Nat.cast_pos.mpr hsize
  have hsum := hlimit.sum_eq hg.within
  rw [Finset.card_range, mul_div_cancel₀ _ hpos.ne'] at hsum
  constructor
  case floor => exact fun v hv => hfloor v (Finset.mem_range.mpr hv)
  case mass =>
    have hle : ∑ v ∈ Finset.range (G.size g), (if G.forEachEdge g v = [] then 0 else rank v) ≤
        ∑ v ∈ Finset.range (G.size g), rank v := by
      apply Finset.sum_le_sum
      intro v hv
      split_ifs
      · exact hnonneg v hv
      · exact le_rfl
    have hscaled := mul_le_mul_of_nonneg_left hle dampingFactor_nonneg
    have hgap : 0 < 1 - dampingFactor := sub_pos.mpr dampingFactor_lt_one
    have hbound : (1 - dampingFactor) * ∑ v ∈ Finset.range (G.size g), rank v ≤
        (1 - dampingFactor) * 1 := by linarith
    exact le_of_mul_le_mul_left hbound hgap
  case full =>
    intro hout
    have hall : ∑ v ∈ Finset.range (G.size g), (if G.forEachEdge g v = [] then 0 else rank v) =
        ∑ v ∈ Finset.range (G.size g), rank v :=
      Finset.sum_congr rfl fun v hv => if_neg (hout v (Finset.mem_range.mp hv))
    rw [hall] at hsum
    have hgap : 1 - dampingFactor ≠ 0 := (sub_pos.mpr dampingFactor_lt_one).ne'
    have hone : (1 - dampingFactor) * ∑ v ∈ Finset.range (G.size g), rank v =
        (1 - dampingFactor) * 1 := by linarith
    exact mul_left_cancel₀ hgap hone

theorem exists_isLimit (hg : Multigraph G g) : ∃ rank, IsLimit G g rank :=
  exists_stationary hg.within dampingFactor_nonneg dampingFactor_lt_one _

/-- How far ranks are from others, over all vertices. -/
def distance (G : MutableGraph σ) (g : σ) (rank rank' : ℕ → ℚ) : ℚ :=
  ∑ v ∈ Finset.range (G.size g), |rank v - rank' v|

variable (interleaving : Interleaving) (hg : Multigraph G g) {limit : ℕ → ℚ}
  (hlimit : IsLimit G g limit)

section Iteration
include hg

/-- An iteration cannot tell the ranks it leaves from those a damped push gives. -/
theorem distance_iteration (iter : ℕ) (s : Ranks) (rank : ℕ → ℚ) :
    distance G g (iteration G g interleaving iter s).rank rank =
      ∑ v ∈ Finset.range (G.size g), |damped (G.forEachEdge g) (Finset.range (G.size g))
        ((1 - dampingFactor) / G.size g) dampingFactor s.rank v - rank v| := by
  obtain ⟨hrank, -⟩ := iteration_eq interleaving hg iter s
  exact Finset.sum_congr rfl fun v hv => by rw [hrank v hv]

theorem diff_eq_distance (iter : ℕ) (s : Ranks) : (iteration G g interleaving iter s).diff =
    distance G g (iteration G g interleaving iter s).rank s.rank :=
  (iteration_eq interleaving hg iter s).2

include hlimit

/-- Every iteration brings the ranks closer by the damping factor. -/
theorem distance_iteration_le (iter : ℕ) (s : Ranks) :
    distance G g (iteration G g interleaving iter s).rank limit ≤
      dampingFactor * distance G g s.rank limit := by
  rw [distance_iteration interleaving hg]
  exact Stationary.sum_abs_sub_le hg.within dampingFactor_nonneg hlimit s.rank

/-- What an iteration changes tells how far the ranks still are from the limit. -/
theorem distance_iteration_le_diff (iter : ℕ) (s : Ranks) :
    (1 - dampingFactor) * distance G g (iteration G g interleaving iter s).rank limit ≤
      dampingFactor * (iteration G g interleaving iter s).diff := by
  rw [diff_eq_distance interleaving hg, distance_iteration interleaving hg,
    distance_iteration interleaving hg]
  exact Stationary.error_le hg.within dampingFactor_nonneg hlimit s.rank

end Iteration

/-- The loop over the iterations: the ranks get closer to the limit with each, and those at which the
tolerance test ends the loop are as close as the tolerance says. -/
theorem iterations_distance (hg : Multigraph G g) (hlimit : IsLimit G g limit) (k iter : ℕ)
    {s : Ranks} {b : ℚ} (hb : distance G g s.rank limit ≤ b) :
    (∀ j, ∀ s' ∈ (iterations G g interleaving k iter s).1[j]?,
      distance G g s'.rank limit ≤ dampingFactor ^ (j + 1) * b) ∧
      ((iterations G g interleaving k iter s).2 = true →
        ∃ s' ∈ (iterations G g interleaving k iter s).1.getLast?,
          (1 - dampingFactor) * distance G g s'.rank limit ≤ dampingFactor * tolerance) := by
  induction k generalizing iter s b with
  | zero => simp [iterations]
  | succ k ih =>
    have hcloser := (distance_iteration_le interleaving hg hlimit iter s).trans
      (mul_le_mul_of_nonneg_left hb dampingFactor_nonneg)
    obtain ⟨hall, hlast⟩ := ih (iter + 1) hcloser
    rw [iterations]
    dsimp only
    split_ifs with hsmall
    · constructor
      · intro j s' hs'
        cases j with
        | zero =>
          obtain rfl : iteration G g interleaving iter s = s' := by simpa using hs'
          simpa using hcloser
        | succ j => simp at hs'
      · intro _
        refine ⟨_, rfl, ?_⟩
        exact (distance_iteration_le_diff interleaving hg hlimit iter s).trans
          (mul_le_mul_of_nonneg_left hsmall.le dampingFactor_nonneg)
    · constructor
      · intro j s' hs'
        cases j with
        | zero =>
          obtain rfl : iteration G g interleaving iter s = s' := by simpa using hs'
          simpa using hcloser
        | succ j =>
          rw [pow_succ, mul_assoc]
          exact hall j s' (by simpa using hs')
      · intro htrue
        obtain ⟨s', hs', hle⟩ := hlast htrue
        refine ⟨s', ?_, hle⟩
        rw [List.getLast?_cons, Option.mem_def.mp hs']
        rfl

end Limit

/-- There are ranks that no iteration changes, only one such assignment, and it is a distribution. In
whatever order the additions arrive, the ranks get closer to it with every iteration, and the loop ends
with ranks that are at most 17 / 30000 away from it in all. -/
theorem compute_accuracy {σ : Type} (G : MutableGraph σ) (g : σ) (hsize : 0 < G.size g)
    (hg : Multigraph G g) :
    ∃ limit : ℕ → ℚ, IsDistribution G g limit ∧
      (∀ rank, IsLimit G g rank ↔ ∀ v < G.size g, rank v = limit v) ∧
      ∀ interleaving : Interleaving,
        (∀ j, ∀ s ∈ (compute G g interleaving).1[j]?,
          distance G g s.rank limit ≤ 2 * (17 / 20) ^ (j + 1)) ∧
        ∃ s ∈ (compute G g interleaving).1.getLast?, distance G g s.rank limit ≤ 17 / 30000 := by
  obtain ⟨limit, hlimit⟩ := exists_isLimit hg
  have hdistribution := hlimit.isDistribution hsize hg
  have hstart := initialRank_isDistribution hsize
  have hfar : distance G g (initialRank G g) limit ≤ 2 := by
    have hsum := sum_abs_sub_le hstart.nonneg hdistribution.nonneg
    unfold distance
    linarith [hstart.mass, hdistribution.mass]
  refine ⟨limit, hdistribution, fun rank => ⟨?_, ?_⟩, fun interleaving => ?_⟩
  · intro hrank v hv
    exact Stationary.eq_of hg.within dampingFactor_nonneg dampingFactor_lt_one hrank hlimit v
      (Finset.mem_range.mpr hv)
  · intro hsame w hw
    rw [hsame w (Finset.mem_range.mp hw), hlimit w hw, damped, damped, push, push]
    congr 2
    exact Finset.sum_congr rfl fun v hv => by rw [hsame v (Finset.mem_range.mp hv)]
  · obtain ⟨hall, hlast⟩ := iterations_distance interleaving hg hlimit maxIterations 0
      (s := ⟨fun _ => 0, initialRank G g, 0⟩) hfar
    obtain ⟨-, -, hends⟩ := iterations_spec interleaving hsize hg maxIterations 0
      (s := ⟨fun _ => 0, initialRank G g, 0⟩) hstart
      (iteration_diff_le_two interleaving hsize hg 0 hstart)
    obtain ⟨htrue, -⟩ := hends 61 (by decide) (by norm_num [dampingFactor, tolerance])
    obtain ⟨s, hs, hle⟩ := hlast htrue
    constructor
    · intro j s hs
      rw [mul_comm]
      exact hall j s hs
    · refine ⟨s, hs, ?_⟩
      norm_num [dampingFactor, tolerance] at hle
      linarith

/-- Parallel edges, a self loop, and a vertex without out-edges. -/
theorem compute_accuracy_three :
    let g := adjGraph.calls .new [.batch [(0, [1, 1, 2]), (1, [1, 2])] .sequential]
    ∃ limit, IsDistribution adjGraph g limit ∧
      ∃ s ∈ (compute adjGraph g backwards).1.getLast?, distance adjGraph g s.rank limit ≤ 17 / 30000 := by
  intro g
  obtain ⟨limit, hlimit, -, hall⟩ :=
    compute_accuracy adjGraph g (by decide) (adjGraph_multigraph _)
  exact ⟨limit, hlimit, (hall backwards).2⟩

end Scea.PageRank
