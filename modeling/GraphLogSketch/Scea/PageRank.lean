import GraphLogSketch.Library.AtomicAdds
import GraphLogSketch.Library.DampedPush
import GraphLogSketch.Scea.BetweennessCentrality

/-! Page rank: every vertex pushes its rank along its edges, until the ranks hardly change any more. Ranks
are exact. -/
namespace Scea.PageRank
open AtomicAdds DampedPush
open BetweennessCentrality (WithinGraph)

def dampingFactor : ℚ := 17 / 20

def maxIterations : ℕ := 100

def tolerance : ℚ := 1 / 10000

/-- The order in which the additions of an iteration arrive, and those in which its other loops get to
the vertices. -/
structure Interleaving where
  arrive : ℕ → List (ℕ × ℚ) → List (ℕ × ℚ)
  resetNewRank : ℕ → Schedule
  computeNewRanks : ℕ → Schedule
  checkConvergence : ℕ → Schedule
  arrive_perm : ∀ iter adds, (arrive iter adds).Perm adds

structure Ranks where
  newRank : ℕ → ℚ
  rank : ℕ → ℚ
  diff : ℚ

section Compute
variable {σ : Type} (G : MutableGraph σ) (g : σ) (interleaving : Interleaving)

/-- What the loop `DistributeContributions` adds to the new ranks. -/
def contributions (rank : ℕ → ℚ) : List (ℕ × ℚ) :=
  (List.range (G.size g)).flatMap fun i =>
    (G.forEachEdge g i).map fun dst => (dst, rank i / G.getOutDegree g i)

/-- The body of the loop `CheckConvergenceAndUpdate`. -/
def checkVertex (s : Ranks) (i : ℕ) : Ranks :=
  { s with
    diff := s.diff + |s.newRank i - s.rank i|
    rank := Function.update s.rank i (s.newRank i) }

def iteration (iter : ℕ) (s : Ranks) : Ranks :=
  let numNodes := G.size g
  let newRank := ((interleaving.resetNewRank iter).order numNodes).foldl
    (fun newRank i => Function.update newRank i 0) s.newRank
  let newRank := addAll (interleaving.arrive iter (contributions G g s.rank)) newRank
  let newRank := ((interleaving.computeNewRanks iter).order numNodes).foldl
    (fun newRank i => Function.update newRank i
      ((1 - dampingFactor) / numNodes + dampingFactor * newRank i)) newRank
  ((interleaving.checkConvergence iter).order numNodes).foldl checkVertex ⟨newRank, s.rank, 0⟩

/-- What the iterations leave behind, and whether the loop ends through the tolerance test. -/
def iterations : ℕ → ℕ → Ranks → List Ranks × Bool
  | 0, _, _ => ([], false)
  | k + 1, iter, s =>
    let s := iteration G g interleaving iter s
    if s.diff < tolerance then ([s], true)
    else
      let rest := iterations k (iter + 1) s
      (s :: rest.1, rest.2)

def initialRank : ℕ → ℚ := fun _ => 1 / G.size g

def compute : List Ranks × Bool :=
  iterations G g interleaving maxIterations 0 ⟨fun _ => 0, initialRank G g, 0⟩

end Compute

/-- Ranks that are large enough and have a mass of at most one, or of one if every vertex has an
out-edge. -/
structure IsDistribution {σ : Type} (G : MutableGraph σ) (g : σ) (rank : ℕ → ℚ) : Prop where
  floor : ∀ v < G.size g, (1 - dampingFactor) / G.size g ≤ rank v
  mass : ∑ v ∈ Finset.range (G.size g), rank v ≤ 1
  full : (∀ v < G.size g, G.forEachEdge g v ≠ []) → ∑ v ∈ Finset.range (G.size g), rank v = 1

/-- The graph has its edges between its own vertices, and tells how many of them a vertex has. -/
structure Multigraph {σ : Type} (G : MutableGraph σ) (g : σ) : Prop where
  within : WithinGraph G g
  degree : ∀ v, G.getOutDegree g v = (G.forEachEdge g v).length

section Iteration
variable {σ : Type} {G : MutableGraph σ} {g : σ}

theorem foldl_checkVertex {order : List ℕ} (hnodup : order.Nodup) (s : Ranks) :
    (order.foldl checkVertex s).diff =
        s.diff + (order.map fun i => |s.newRank i - s.rank i|).sum ∧
      ∀ v, (order.foldl checkVertex s).rank v = if v ∈ order then s.newRank v else s.rank v := by
  induction order generalizing s with
  | nil => simp
  | cons i order ih =>
    obtain ⟨hi, hnodup⟩ := List.nodup_cons.mp hnodup
    obtain ⟨hdiff, hrank⟩ := ih hnodup (checkVertex s i)
    have hsame : (order.map fun j => |(checkVertex s i).newRank j - (checkVertex s i).rank j|) =
        order.map fun j => |s.newRank j - s.rank j| := by
      apply List.map_congr_left
      intro j hj
      have hne : j ≠ i := fun h => hi (h ▸ hj)
      simp [checkVertex, hne]
    rw [List.foldl_cons, hdiff, hsame]
    refine ⟨by simp [checkVertex, add_assoc], fun v => ?_⟩
    rw [hrank]
    by_cases hv : v = i
    · subst hv
      simp [hi, checkVertex]
    · simp [checkVertex, hv]

theorem sum_map_range {M : Type*} [AddCommMonoid M] (n : ℕ) (f : ℕ → M) :
    ((List.range n).map f).sum = ∑ i ∈ Finset.range n, f i := by
  rw [← List.sum_toFinset f List.nodup_range, List.toFinset_range]

theorem received_contributions (h : Multigraph G g) (rank : ℕ → ℚ) (w : ℕ) :
    AtomicAdds.received (contributions G g rank) w =
      push (G.forEachEdge g) (Finset.range (G.size g)) rank w := by
  have hvertex (i : ℕ) : AtomicAdds.received ((G.forEachEdge g i).map fun dst =>
      (dst, rank i / G.getOutDegree g i)) w =
        (G.forEachEdge g i).count w * (rank i / (G.forEachEdge g i).length) := by
    rw [received_const, nsmul_eq_mul, h.degree]
  rw [contributions, received_flatMap, sum_map_range, push]
  exact Finset.sum_congr rfl fun i _ => hvertex i

/-- An iteration is a damped push, and sums up how far it goes. -/
theorem iteration_eq (interleaving : Interleaving) (h : Multigraph G g) (iter : ℕ) (s : Ranks) :
    (∀ v ∈ Finset.range (G.size g), (iteration G g interleaving iter s).rank v =
      damped (G.forEachEdge g) (Finset.range (G.size g)) ((1 - dampingFactor) / G.size g)
        dampingFactor s.rank v) ∧
      (iteration G g interleaving iter s).diff =
        ∑ v ∈ Finset.range (G.size g), |(iteration G g interleaving iter s).rank v - s.rank v| := by
  have hperm := (interleaving.checkConvergence iter).perm (G.size g)
  have hnodup := hperm.nodup_iff.mpr List.nodup_range
  unfold iteration
  dsimp only
  set reset := ((interleaving.resetNewRank iter).order (G.size g)).foldl
    (fun newRank i => Function.update newRank i (0 : ℚ)) s.newRank with hreset
  set newRank := ((interleaving.computeNewRanks iter).order (G.size g)).foldl
    (fun newRank i => Function.update newRank i
      ((1 - dampingFactor) / G.size g + dampingFactor * newRank i))
    (addAll (interleaving.arrive iter (contributions G g s.rank)) reset) with hnew
  have hnewRank {v : ℕ} (hv : v < G.size g) : newRank v =
      damped (G.forEachEdge g) (Finset.range (G.size g)) ((1 - dampingFactor) / G.size g)
        dampingFactor s.rank v := by
    have hzero : reset v = 0 :=
      (interleaving.resetNewRank iter).foldl_update (fun _ _ => (0 : ℚ)) s.newRank hv
    rw [hnew, (interleaving.computeNewRanks iter).foldl_update
      (fun _ x => (1 - dampingFactor) / G.size g + dampingFactor * x) _ hv, addAll_apply, hzero,
      zero_add, AtomicAdds.received_perm (interleaving.arrive_perm iter _),
      received_contributions h, damped]
  obtain ⟨hdiff, hrank⟩ := foldl_checkVertex hnodup ⟨newRank, s.rank, 0⟩
  have hfinal {v : ℕ} (hv : v < G.size g) :
      (((interleaving.checkConvergence iter).order (G.size g)).foldl checkVertex
        ⟨newRank, s.rank, 0⟩).rank v = newRank v := by
    rw [hrank, if_pos (hperm.mem_iff.mpr (List.mem_range.mpr hv))]
  constructor
  · intro v hv
    rw [hfinal (Finset.mem_range.mp hv), hnewRank (Finset.mem_range.mp hv)]
  · rw [hdiff, zero_add, (hperm.map _).sum_eq, sum_map_range]
    apply Finset.sum_congr rfl
    intro v hv
    rw [hfinal (Finset.mem_range.mp hv)]

end Iteration

section Convergence
variable {σ : Type} {G : MutableGraph σ} {g : σ} (interleaving : Interleaving)

theorem dampingFactor_nonneg : 0 ≤ dampingFactor := by
  unfold dampingFactor
  norm_num

theorem base_nonneg (n : ℕ) : 0 ≤ (1 - dampingFactor) / n := by
  apply div_nonneg _ (Nat.cast_nonneg n)
  unfold dampingFactor
  norm_num

theorem initialRank_isDistribution (hsize : 0 < G.size g) :
    IsDistribution G g (initialRank G g) := by
  have hpos : (0 : ℚ) < G.size g := Nat.cast_pos.mpr hsize
  have hsum : ∑ v ∈ Finset.range (G.size g), initialRank G g v = 1 := by
    simp [initialRank, hpos.ne']
  refine ⟨fun v _ => ?_, hsum.le, fun _ => hsum⟩
  apply div_le_div_of_nonneg_right _ hpos.le
  unfold dampingFactor
  norm_num

theorem IsDistribution.nonneg {rank : ℕ → ℚ} (h : IsDistribution G g rank) :
    ∀ v ∈ Finset.range (G.size g), 0 ≤ rank v := fun v hv =>
  (base_nonneg _).trans (h.floor v (Finset.mem_range.mp hv))

theorem IsDistribution.iteration (hsize : 0 < G.size g) (hg : Multigraph G g) {s : Ranks}
    (hs : IsDistribution G g s.rank) (iter : ℕ) :
    IsDistribution G g (iteration G g interleaving iter s).rank := by
  obtain ⟨hrank, -⟩ := iteration_eq interleaving hg iter s
  have hpos : (0 : ℚ) < G.size g := Nat.cast_pos.mpr hsize
  have hsum : ∑ v ∈ Finset.range (G.size g), (PageRank.iteration G g interleaving iter s).rank v =
      (1 - dampingFactor) + dampingFactor *
        ∑ v ∈ Finset.range (G.size g), if G.forEachEdge g v = [] then 0 else s.rank v := by
    rw [Finset.sum_congr rfl hrank, ← sum_push hg.within, Finset.mul_sum]
    unfold damped
    rw [Finset.sum_add_distrib, Finset.sum_const, Finset.card_range, nsmul_eq_mul,
      mul_div_cancel₀ _ hpos.ne']
  constructor
  case floor =>
    intro v hv
    have hpush : 0 ≤ dampingFactor *
        push (G.forEachEdge g) (Finset.range (G.size g)) s.rank v :=
      mul_nonneg dampingFactor_nonneg (push_nonneg hs.nonneg v)
    rw [hrank v (Finset.mem_range.mpr hv), damped]
    linarith
  case mass =>
    have hle : ∑ v ∈ Finset.range (G.size g), (if G.forEachEdge g v = [] then 0 else s.rank v) ≤
        1 := by
      refine le_trans (Finset.sum_le_sum fun v hv => ?_) hs.mass
      split_ifs
      · exact hs.nonneg v hv
      · exact le_rfl
    have hdamped := mul_le_mul_of_nonneg_left hle dampingFactor_nonneg
    rw [hsum]
    linarith
  case full =>
    intro hout
    have hall : ∑ v ∈ Finset.range (G.size g), (if G.forEachEdge g v = [] then 0 else s.rank v) =
        1 := by
      rw [← hs.full hout]
      exact Finset.sum_congr rfl fun v hv => if_neg (hout v (Finset.mem_range.mp hv))
    rw [hsum, hall]
    ring

/-- Whatever the order of the additions, the next iteration goes less far by the damping factor. -/
theorem iteration_diff_le (hg : Multigraph G g) (iter iter' : ℕ) (s : Ranks) :
    (iteration G g interleaving iter' (iteration G g interleaving iter s)).diff ≤
      dampingFactor * (iteration G g interleaving iter s).diff := by
  obtain ⟨hrank, hdiff⟩ := iteration_eq interleaving hg iter s
  obtain ⟨hrank', hdiff'⟩ := iteration_eq interleaving hg iter'
    (iteration G g interleaving iter s)
  have hle := sum_abs_damped_sub_le hg.within dampingFactor_nonneg
    ((1 - dampingFactor) / G.size g) (iteration G g interleaving iter s).rank s.rank
  rw [hdiff, hdiff']
  refine le_trans (le_of_eq (Finset.sum_congr rfl fun v hv => ?_)) hle
  rw [hrank' v hv, ← hrank v hv]

theorem iteration_diff_le_two (hsize : 0 < G.size g) (hg : Multigraph G g) (iter : ℕ) {s : Ranks}
    (hs : IsDistribution G g s.rank) : (iteration G g interleaving iter s).diff ≤ 2 := by
  have hnext := hs.iteration interleaving hsize hg iter
  have hsum := sum_abs_sub_le hnext.nonneg hs.nonneg
  rw [(iteration_eq interleaving hg iter s).2]
  linarith [hnext.mass, hs.mass]

theorem iterations_head (k iter : ℕ) (s : Ranks) :
    ∀ s' ∈ (iterations G g interleaving k iter s).1.head?,
      s' = iteration G g interleaving iter s := by
  cases k with
  | zero => simp [iterations]
  | succ k =>
    rw [iterations]
    split_ifs <;> simp

/-- The loop over the iterations: all ranks are distributions, each step is shorter than the one
before, and the loop ends when the steps have become short. -/
theorem iterations_spec (hsize : 0 < G.size g) (hg : Multigraph G g) (k iter : ℕ) {s : Ranks}
    (hs : IsDistribution G g s.rank) {b : ℚ}
    (hb : (iteration G g interleaving iter s).diff ≤ b) :
    (∀ s' ∈ (iterations G g interleaving k iter s).1, IsDistribution G g s'.rank) ∧
      (iterations G g interleaving k iter s).1.IsChain
        (fun s s' => s'.diff ≤ dampingFactor * s.diff) ∧
      ∀ j < k, dampingFactor ^ j * b < tolerance →
        (iterations G g interleaving k iter s).2 = true ∧
          (iterations G g interleaving k iter s).1.length ≤ j + 1 := by
  induction k generalizing iter s b with
  | zero => simp [iterations]
  | succ k ih =>
    have hnext := hs.iteration interleaving hsize hg iter
    have hstep := iteration_diff_le interleaving hg iter (iter + 1) s
    have hbound := hstep.trans (mul_le_mul_of_nonneg_left hb dampingFactor_nonneg)
    obtain ⟨hall, hchain, hends⟩ := ih (iter + 1) hnext hbound
    rw [iterations]
    dsimp only
    split_ifs with hsmall
    · refine ⟨by simpa using hnext, .singleton _, fun j _ _ => ⟨rfl, ?_⟩⟩
      exact Nat.succ_le_succ (Nat.zero_le j)
    · refine ⟨?_, ?_, fun j hj htol => ?_⟩
      · intro s' hs'
        rcases List.mem_cons.mp hs' with rfl | hs'
        · exact hnext
        · exact hall s' hs'
      · refine List.IsChain.cons hchain fun s' hs' => ?_
        rw [iterations_head interleaving k (iter + 1) _ s' hs']
        exact hstep
      · cases j with
        | zero => exact absurd (hb.trans_lt (by simpa using htol)) hsmall
        | succ j =>
          rw [pow_succ, mul_assoc] at htol
          obtain ⟨htrue, hlen⟩ := hends j (Nat.lt_of_succ_lt_succ hj) htol
          exact ⟨htrue, Nat.succ_le_succ hlen⟩

end Convergence

/-- The ranks converge: every iteration goes less far than the one before by the damping factor, the
loop ends through the tolerance test within 62 iterations, and all ranks are distributions. -/
theorem compute_converges {σ : Type} (G : MutableGraph σ) (g : σ) (hsize : 0 < G.size g)
    (hg : Multigraph G g) (interleaving : Interleaving) :
    let r := compute G g interleaving
    r.1.IsChain (fun s s' => s'.diff ≤ 17 / 20 * s.diff) ∧ r.2 = true ∧ r.1.length ≤ 62 ∧
      ∀ rank, rank = initialRank G g ∨ (∃ s ∈ r.1, rank = s.rank) → IsDistribution G g rank := by
  have hstart := initialRank_isDistribution hsize
  obtain ⟨hall, hchain, hends⟩ := iterations_spec interleaving hsize hg maxIterations 0
    (s := ⟨fun _ => 0, initialRank G g, 0⟩) hstart
    (iteration_diff_le_two interleaving hsize hg 0 hstart)
  obtain ⟨htrue, hlen⟩ := hends 61 (by decide) (by norm_num [dampingFactor, tolerance])
  refine ⟨hchain, htrue, hlen, ?_⟩
  rintro rank (rfl | ⟨s, hs, rfl⟩)
  · exact hstart
  · exact hall s hs

/-- The graphs that batches build are multigraphs. -/
theorem adjGraph_multigraph (cs : List Call) : Multigraph adjGraph (adjGraph.calls .new cs) :=
  ⟨BetweennessCentrality.withinGraph_adjGraph cs, fun _ => rfl⟩

/-- Additions that arrive backwards. -/
def backwards : Interleaving where
  arrive _ := List.reverse
  resetNewRank _ := .sequential
  computeNewRanks _ := .sequential
  checkConvergence _ := .sequential
  arrive_perm _ := List.reverse_perm

/-- Parallel edges, a self loop, and a vertex without out-edges. -/
theorem compute_converges_three :
    let g := adjGraph.calls .new [.batch [(0, [1, 1, 2]), (1, [1, 2])] .sequential]
    (compute adjGraph g backwards).2 = true ∧ (compute adjGraph g backwards).1.length ≤ 62 := by
  intro g
  obtain ⟨-, htrue, hlen, -⟩ :=
    compute_converges adjGraph g (by decide) (adjGraph_multigraph _) backwards
  exact ⟨htrue, hlen⟩

end Scea.PageRank
