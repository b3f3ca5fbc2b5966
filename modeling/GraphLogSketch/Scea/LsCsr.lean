import GraphLogSketch.Library.SignificantBits
import GraphLogSketch.Scea.SortedGraphs

/-! The log-structured rows: a graph of the library that is compacted after a batch, if its log takes more
than a share of the memory of the rows. The algorithms find on it what they find on the other graphs,
whatever the share. -/
namespace Scea
open SignificantBits

/-- `LS_LC_CSR_Graph<void, void>`; the loop over the edges of a node is the list of their ends. -/
structure LsLcCsrGraph (γ : Type) where
  construct : (numVertices : ℕ) → γ
  size : γ → ℕ
  getDegree : γ → ℕ → ℕ
  addBatchTopologyOnly : γ → Batch → γ
  getCsrMemoryUsageBytes : γ → ℕ
  getLogMemoryUsageBytes : γ → ℕ
  compact : γ → γ
  edges : γ → ℕ → List ℕ
  sortEdges : γ → ℕ → γ
  findEdgeSorted : γ → ℕ → ℕ → Bool

namespace LsLcCsrGraph
variable {γ : Type} (L : LsLcCsrGraph γ)

/-- There are the vertices that the batch names, and its edges are added to those there were. -/
structure BatchAdded (g : γ) (edges : Batch) (g' : γ) : Prop where
  size : L.size g' = max (L.size g) (maxVertexId edges + 1)
  edgesOld : ∀ v < L.size g, (L.edges g' v).Perm (L.edges g v ++ received edges v)
  edgesNew : ∀ v < L.size g', L.size g ≤ v → (L.edges g' v).Perm (received edges v)

/-- The vertices and edges are those there were. -/
structure EdgesKept (g g' : γ) : Prop where
  size : L.size g' = L.size g
  edges : ∀ v < L.size g, (L.edges g' v).Perm (L.edges g v)

structure Lawful : Prop where
  construct : L.size (L.construct 0) = 0
  degree : ∀ g v, L.getDegree g v = (L.edges g v).length
  addBatch : ∀ g edges, (L.size g = 0 → edges ≠ []) →
    L.BatchAdded g edges (L.addBatchTopologyOnly g edges)
  compact : ∀ g, L.EdgesKept g (L.compact g)
  sort : ∀ g src v, L.edges (L.sortEdges g src) v =
    if v = src then (L.edges g v).mergeSort else L.edges g v
  sortSize : ∀ g src, L.size (L.sortEdges g src) = L.size g
  find : ∀ g src dst, (L.edges g src).Pairwise (· ≤ ·) →
    (L.findEdgeSorted g src dst = true ↔ dst ∈ L.edges g src)

variable {L} in
theorem Lawful.sort_kept (hL : L.Lawful) (g : γ) (src : ℕ) : L.EdgesKept g (L.sortEdges g src) where
  size := hL.sortSize g src
  edges v _ := by
    rw [hL.sort]
    split_ifs
    · exact List.mergeSort_perm _ _
    · exact .rfl

end LsLcCsrGraph

namespace LsCsr
variable {γ : Type} (L : LsLcCsrGraph γ)

def new : γ := L.construct 0

/-- The share of the log is compared in single precision. -/
def postIngest (compactThreshold : ℚ≥0) (g : γ) : γ :=
  let csrUsage := L.getCsrMemoryUsageBytes g
  let memoryUsage := L.getLogMemoryUsageBytes g
  if roundBits 24 memoryUsage > roundBits 24 (compactThreshold * roundBits 24 csrUsage) then
    L.compact g
  else g

end LsCsr

def lsCsr {γ : Type} (L : LsLcCsrGraph γ) (compactThreshold : ℚ≥0) : MutableGraph γ where
  size := L.size
  getOutDegree := L.getDegree
  ingest := L.addBatchTopologyOnly
  postIngest _ := LsCsr.postIngest L compactThreshold
  forEachEdge := L.edges
  sortEdges := L.sortEdges
  findEdgeSorted := L.findEdgeSorted

def lsCsrGraph {γ : Type} (L : LsLcCsrGraph γ) (compactThreshold : ℚ≥0) : SomeGraph :=
  ⟨γ, lsCsr L compactThreshold, LsCsr.new L⟩

/-- The rows have the edges of the batches, wherever they are kept. -/
structure LsCsr.Ok {γ : Type} (L : LsLcCsrGraph γ) (bs : List Batch) (g : γ) : Prop where
  count : L.size g = vertexCount bs
  edges : ∀ v < vertexCount bs, (L.edges g v).Perm (destinations bs v)

section LsCsr
variable {γ : Type} {L : LsLcCsrGraph γ} {bs : List Batch} {g g' : γ}

theorem LsCsr.new_ok (hL : L.Lawful) : LsCsr.Ok L [] (LsCsr.new L) where
  count := hL.construct
  edges _ hv := absurd hv (Nat.not_lt_zero _)

theorem LsCsr.Ok.kept (h : LsCsr.Ok L bs g) (hkept : L.EdgesKept g g') : LsCsr.Ok L bs g' where
  count := hkept.size.trans h.count
  edges v hv := (hkept.edges v (h.count ▸ hv)).trans (h.edges v hv)

theorem LsCsr.Ok.ingest (h : LsCsr.Ok L bs g) {edges : Batch}
    (hadded : L.BatchAdded g edges g') : LsCsr.Ok L (bs ++ [edges]) g' := by
  have hcount : vertexCount (bs ++ [edges]) = max (vertexCount bs) (maxVertexId edges + 1) := by
    rw [vertexCount, List.foldl_append, ← vertexCount]
    rfl
  have hdests (v : ℕ) : destinations (bs ++ [edges]) v = destinations bs v ++ received edges v := by
    rw [destinations, destinations, List.flatMap_append]
    simp
  have hsize : L.size g' = vertexCount (bs ++ [edges]) := by rw [hadded.size, h.count, hcount]
  refine ⟨hsize, fun v hv => ?_⟩
  rw [hdests]
  by_cases hold : v < vertexCount bs
  · exact (hadded.edgesOld v (h.count ▸ hold)).trans ((h.edges v hold).append_right _)
  · -- A vertex that the batch brings in had no edges before.
    have hnone : destinations bs v = [] :=
      List.eq_nil_iff_forall_not_mem.mpr fun d hd => hold (lt_vertexCount hd).1
    rw [hnone, List.nil_append]
    exact hadded.edgesNew v (hsize ▸ hv) (h.count ▸ Nat.le_of_not_lt hold)

theorem eq_nil_of_vertexCount (h : vertexCount bs = 0) : bs = [] := by
  rcases List.eq_nil_or_concat bs with rfl | ⟨bs, b, rfl⟩
  · rfl
  · rw [vertexCount, List.concat_eq_append, List.foldl_append] at h
    exact absurd h (Nat.ne_of_gt (Nat.lt_of_lt_of_le (Nat.succ_pos _) (Nat.le_max_right _ _)))

/-- Compacted or not, the graph has the same edges. -/
theorem LsCsr.Ok.postIngest (h : LsCsr.Ok L bs g) (hL : L.Lawful) (compactThreshold : ℚ≥0) :
    LsCsr.Ok L bs (LsCsr.postIngest L compactThreshold g) := by
  unfold LsCsr.postIngest
  dsimp only
  split_ifs
  · exact h.kept (hL.compact g)
  · exact h

/-- A batch, unless it is empty and the first. -/
theorem LsCsr.Ok.batch (h : LsCsr.Ok L bs g) (hL : L.Lawful) (compactThreshold : ℚ≥0)
    {edges : Batch} (hfirst : bs = [] → edges ≠ []) (schedule : Schedule) :
    LsCsr.Ok L (bs ++ [edges]) ((lsCsr L compactThreshold).call g (.batch edges schedule)) := by
  have hsame : L.size g = 0 → edges ≠ [] := fun hsize => hfirst (by
    rw [h.count] at hsize
    exact eq_nil_of_vertexCount hsize)
  exact (h.ingest (hL.addBatch g edges hsame)).postIngest hL compactThreshold

theorem lsCsr_calls_ok (hL : L.Lawful) (compactThreshold : ℚ≥0) {cs : List Call}
    (hfirst : (batches cs).head? ≠ some []) :
    LsCsr.Ok L (batches cs) ((lsCsrGraph L compactThreshold).calls cs) := by
  induction cs using List.reverseRecOn with
  | nil => exact LsCsr.new_ok hL
  | append_singleton cs c ih =>
    rw [batches_concat] at hfirst
    have hold := ih fun hnil => hfirst (by rw [List.head?_append, hnil]; rfl)
    rw [SomeGraph.calls, MutableGraph.calls_concat, batches_concat]
    cases c with
    | batch edges schedule =>
      refine hold.batch hL compactThreshold (fun hnone hsame => hfirst ?_) schedule
      rw [hnone, hsame]
      rfl
    | sortEdges src =>
      show LsCsr.Ok L (batches cs ++ []) _
      rw [List.append_nil]
      exact hold.kept (hL.sort_kept _ src)

theorem LsCsr.Ok.holds (h : LsCsr.Ok L bs g) (hL : L.Lawful) (compactThreshold : ℚ≥0) :
    Holds (lsCsr L compactThreshold) g (.ofBatches bs) := ⟨h.count, hL.degree g, h.edges⟩

theorem lsCsr_holds (hL : L.Lawful) (compactThreshold : ℚ≥0) {cs : List Call}
    (hfirst : (batches cs).head? ≠ some []) :
    Holds (lsCsrGraph L compactThreshold).ops ((lsCsrGraph L compactThreshold).calls cs)
      (.ofBatches (batches cs)) :=
  (lsCsr_calls_ok hL compactThreshold hfirst).holds hL compactThreshold

end LsCsr

section Reference

end Reference

end Scea
