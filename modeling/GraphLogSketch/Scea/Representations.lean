import GraphLogSketch.Scea.PageRank
import GraphLogSketch.Scea.SsspBfs

/-! What a graph stands for: vertices, and lists of destinations that may come in any order. The
algorithms find the same on all graphs that stand for the same, whatever the interleavings. -/
namespace Scea
open ShortestPaths

/-- Vertices below a bound, and the destinations of the edges of each. -/
structure EdgeLists where
  size : ℕ
  out : ℕ → List ℕ
  within : ∀ v, ∀ d ∈ out v, v < size ∧ d < size

namespace EdgeLists

theorem closed (M : EdgeLists) : Closed M.out (Finset.range M.size) := fun v _ d hd =>
  Finset.mem_range.mpr (M.within v d hd).2

/-- The same vertices and edges, in whatever order. -/
structure Same (M N : EdgeLists) : Prop where
  size : M.size = N.size
  out : ∀ v < M.size, (M.out v).Perm (N.out v)

/-- What the batches give. -/
def ofBatches (bs : List Batch) : EdgeLists where
  size := vertexCount bs
  out := destinations bs
  within _ _ hd := lt_vertexCount hd

/-- One edge in place of several parallel ones. -/
def simple (M : EdgeLists) : EdgeLists where
  size := M.size
  out v := (M.out v).dedup
  within v d hd := M.within v d (List.mem_dedup.mp hd)

open scoped Classical in
/-- How far away the vertices are from a source. -/
noncomputable def distances (M : EdgeLists) (src v : ℕ) : ℕ :=
  if src < M.size ∧ Reaches M.out src v then sInf {n | 0 < walkCount M.out n src v}
  else SsspBfs.unvisited

variable {M N : EdgeLists} {src v n : ℕ}

theorem Same.symm (h : M.Same N) : N.Same M :=
  ⟨h.size.symm, fun v hv => (h.out v (h.size ▸ hv)).symm⟩

theorem distances_eq (hsrc : src < M.size) (hv : Distance M.out src v n) :
    M.distances src v = n := by
  rw [distances, if_pos ⟨hsrc, hv.reaches⟩, hv.sInf_eq]

theorem distances_of_not_reaches (h : ¬ (src < M.size ∧ Reaches M.out src v)) :
    M.distances src v = SsspBfs.unvisited := if_neg h

/-- Only where there are edges matters for the distances. -/
theorem distances_congr (hsize : M.size = N.size)
    (hmem : ∀ v < M.size, ∀ d, d ∈ M.out v ↔ d ∈ N.out v) (src : ℕ) :
    M.distances src = N.distances src := by
  funext v
  by_cases hsrc : src < M.size
  · have hrange : src ∈ Finset.range M.size := Finset.mem_range.mpr hsrc
    have hsame : ∀ v ∈ Finset.range M.size, ∀ d, d ∈ M.out v ↔ d ∈ N.out v := fun v hv =>
      hmem v (Finset.mem_range.mp hv)
    by_cases hreach : Reaches M.out src v
    · obtain ⟨n, hn⟩ := hreach.exists_distance
      rw [distances_eq hsrc hn,
        distances_eq (hsize ▸ hsrc) ((distance_congr M.closed hsame hrange v n).mp hn)]
    · have hreach' : ¬ Reaches N.out src v := fun h =>
        hreach ((reaches_congr M.closed hsame hrange v).mpr h)
      rw [distances_of_not_reaches fun h => hreach h.2,
        distances_of_not_reaches fun h => hreach' h.2]
  · rw [distances_of_not_reaches fun h => hsrc h.1,
      distances_of_not_reaches fun h => hsrc (hsize ▸ h.1)]

theorem Same.distances (h : M.Same N) (src : ℕ) : M.distances src = N.distances src :=
  distances_congr h.size (fun v hv _ => (h.out v hv).mem_iff) src

theorem distances_simple (M : EdgeLists) (src : ℕ) : M.simple.distances src = M.distances src := by
  have hmem (v : ℕ) (_ : v < M.simple.size) (d : ℕ) : d ∈ M.simple.out v ↔ d ∈ M.out v :=
    List.mem_dedup
  exact distances_congr (M := M.simple) (N := M) rfl hmem src

end EdgeLists

/-- The graph has these vertices and edges. -/
structure Holds {σ : Type} (G : MutableGraph σ) (g : σ) (M : EdgeLists) : Prop where
  size : G.size g = M.size
  degree : ∀ v, G.getOutDegree g v = (G.forEachEdge g v).length
  out : ∀ v < M.size, (G.forEachEdge g v).Perm (M.out v)

section Holds
variable {σ : Type} {G : MutableGraph σ} {g : σ} {M N : EdgeLists}

theorem Holds.same (h : Holds G g M) (hsame : M.Same N) : Holds G g N :=
  ⟨h.size.trans hsame.size, h.degree, fun v hv =>
    (h.out v (hsame.size ▸ hv)).trans (hsame.out v (hsame.size ▸ hv))⟩

theorem Holds.within (h : Holds G g M) : BetweennessCentrality.WithinGraph G g := by
  intro v hv d hd
  rw [h.size] at hv ⊢
  exact M.closed v hv d ((h.out v (Finset.mem_range.mp hv)).mem_iff.mp hd)

theorem AdjGraph.Ok.holds {bs : List Batch} {g : AdjGraph} (h : g.Ok bs) :
    Holds adjGraph g (.ofBatches bs) := ⟨h.count, fun _ => rfl, fun v _ => h.out v⟩

theorem csr_holds {computePrefixSum : List (List ℕ) → List ℕ}
    (hsum : PrefixSums computePrefixSum) (cs : List Call) :
    Holds (csr computePrefixSum) ((csr computePrefixSum).calls .new cs)
      (.ofBatches (batches cs)) := by
  have hok := csr_calls_ok hsum cs
  constructor
  case size => exact hok.size_eq
  case degree =>
    intro v
    show _ = (Csr.forEachEdge _ v).length
    rw [Csr.forEachEdge, List.length_map, List.length_range']
    rfl
  case out => exact fun v hv => .of_eq (hok.forEachEdge hv)

end Holds

section Bfs
variable {σ : Type} {G : MutableGraph σ} {g : σ} {M : EdgeLists}

/-- Breadth-first search finds the distances of what the graph stands for. -/
theorem Holds.bfs (h : Holds G g M) (hsize : 8 * M.size ≤ 2 ^ 64) (picks : ℕ → List ℕ) (src : ℕ) :
    SsspBfs.compute G g picks src = some (M.distances src) := by
  have hclosed := h.within
  by_cases hsrc : src < M.size
  · have hsrc' : src < G.size g := h.size ▸ hsrc
    obtain ⟨r, hrun, hdist, hnot⟩ := SsspBfs.levels_result hclosed (h.size ▸ hsize) hsrc' picks _
      (Nat.zero_le _) rfl (SsspBfs.ready_zero (G.forEachEdge g) src)
    have hsame : ∀ v ∈ Finset.range M.size, ∀ d, d ∈ M.out v ↔ d ∈ G.forEachEdge g v := fun v hv _ =>
      (h.out v (Finset.mem_range.mp hv)).mem_iff.symm
    have hrange : src ∈ Finset.range M.size := Finset.mem_range.mpr hsrc
    have hr : r = M.distances src := by
      funext v
      by_cases hreach : Reaches M.out src v
      · obtain ⟨n, hn⟩ := hreach.exists_distance
        rw [EdgeLists.distances_eq hsrc hn,
          hdist v n ((distance_congr M.closed hsame hrange v n).mp hn)]
      · rw [EdgeLists.distances_of_not_reaches fun h => hreach h.2,
          hnot v fun h => hreach ((reaches_congr M.closed hsame hrange v).mpr h)]
    rw [SsspBfs.compute, if_neg (not_le.mpr hsrc'), hrun, hr]
  · have hnone : M.distances src = fun _ => SsspBfs.unvisited :=
      funext fun v => EdgeLists.distances_of_not_reaches fun h => hsrc h.1
    rw [SsspBfs.compute, h.size, if_pos (not_lt.mp hsrc), hnone]

end Bfs

section Agree
variable {σ τ : Type} {G : MutableGraph σ} {K : MutableGraph τ} {g : σ} {k : τ} {M : EdgeLists}

/-- Scores are the betweenness over the selected sources of what the graph stands for. -/
theorem Holds.betweenness (hg : Holds G g M) (hsize : 8 * M.size ≤ 2 ^ 64)
    (interleaving : BetweennessCentrality.Interleaving) {shuffle : List ℕ → List ℕ}
    (hshuffle : ∀ l, (shuffle l).Perm l) (numSrc : ℕ)
    (hfits : ∀ src < M.size, ∀ v < M.size, pathCount M.out src v < 2 ^ 64) :
    ∃ scores, BetweennessCentrality.compute G g interleaving shuffle numSrc = some scores ∧
      ∀ v, scores v = Betweenness.betweenness M.out (Finset.range M.size)
        (BetweennessCentrality.selectSources G g shuffle numSrc) v := by
  have hclosed := hg.within
  have hperm : ∀ v ∈ Finset.range M.size, (M.out v).Perm (G.forEachEdge g v) := fun v hv =>
    (hg.out v (Finset.mem_range.mp hv)).symm
  have hsources : ∀ src ∈ BetweennessCentrality.selectSources G g shuffle numSrc,
      src < M.size := fun src hsrc =>
    hg.size ▸ BetweennessCentrality.mem_selectSources hshuffle hsrc
  have hcounts : ∀ src ∈ BetweennessCentrality.selectSources G g shuffle numSrc,
      src < G.size g ∧ ∀ v, pathCount (G.forEachEdge g) src v < 2 ^ 64 := by
    intro src hsrc
    have hlt := hsources src hsrc
    have hlt' : src < G.size g := hg.size ▸ hlt
    refine ⟨hlt', fun v => Nat.lt_of_le_pred (Nat.two_pow_pos 64)
      (hclosed.pathCount_le hlt' (fun v hv => Nat.le_pred_of_lt ?_) v)⟩
    rw [← pathCount_perm M.closed hperm (Finset.mem_range.mpr hlt)]
    exact hfits src hlt v (hg.size ▸ hv)
  obtain ⟨scores, hrun, hscores⟩ := BetweennessCentrality.foldlM_addSource hclosed
    (hg.size ▸ hsize) interleaving hcounts fun _ => 0
  refine ⟨scores, hrun, fun v => ?_⟩
  rw [hscores v, zero_add, hg.size]
  exact (Betweenness.betweenness_perm M.closed hperm
    (fun src hsrc => Finset.mem_range.mpr (hsources src hsrc)) v).symm

end Agree

end Scea
