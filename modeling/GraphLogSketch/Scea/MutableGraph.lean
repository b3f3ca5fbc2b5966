import GraphLogSketch.Library.AtomicAdds
import GraphLogSketch.Library.BinarySearch
import GraphLogSketch.Library.Compaction

/-! The graphs that batches of edges are ingested into: adjacency lists, and the compressed rows that
`post_ingest` builds from them. Vertex ids index vectors, so they are natural numbers here. -/
namespace Scea
open BinarySearch Compaction

/-- Source vertices with their new destinations, in the order in which threads get to them. -/
abbrev Batch := List (ℕ × List ℕ)

/-- The order in which the threads of a loop get to its `n` iterations. -/
structure Schedule where
  order : ℕ → List ℕ
  perm : ∀ n, (order n).Perm (List.range n)

def Schedule.sequential : Schedule := ⟨List.range, fun _ => .rfl⟩

/-- A loop over the iterations that sets an entry of a vector in each. -/
theorem Schedule.foldl_update {α : Type*} (schedule : Schedule) (f : ℕ → α → α) (a : ℕ → α)
    {n v : ℕ} (hv : v < n) :
    (schedule.order n).foldl (fun a i => Function.update a i (f i (a i))) a v = f v (a v) := by
  have hperm := schedule.perm n
  rw [AtomicAdds.foldl_update f (hperm.nodup_iff.mpr List.nodup_range),
    if_pos (hperm.mem_iff.mpr (List.mem_range.mpr hv))]

/-- The operations of a graph; a loop over edges is the list of destinations it visits. -/
structure MutableGraph (σ : Type) where
  size : σ → ℕ
  getOutDegree : σ → ℕ → ℕ
  ingest : σ → Batch → σ
  postIngest : Schedule → σ → σ
  forEachEdge : σ → ℕ → List ℕ
  sortEdges : σ → ℕ → σ
  findEdgeSorted : σ → ℕ → ℕ → Bool

/-- What a client does to a graph before it reads it. -/
inductive Call where
  | batch (edges : Batch) (schedule : Schedule)
  | sortEdges (src : ℕ)

namespace MutableGraph
variable {σ : Type} (G : MutableGraph σ)

def call (g : σ) : Call → σ
  | .batch edges schedule => G.postIngest schedule (G.ingest g edges)
  | .sortEdges src => G.sortEdges g src

def calls (g : σ) (cs : List Call) : σ := cs.foldl G.call g

theorem calls_concat (g : σ) (cs : List Call) (c : Call) :
    G.calls g (cs ++ [c]) = G.call (G.calls g cs) c := List.foldl_concat ..

end MutableGraph

def Call.edges : Call → Option Batch
  | .batch edges _ => some edges
  | .sortEdges _ => none

/-- The batches among the calls. -/
def batches (cs : List Call) : List Batch := cs.filterMap Call.edges

theorem batches_concat (cs : List Call) (c : Call) :
    batches (cs ++ [c]) = batches cs ++ c.edges.toList := by
  rw [batches, List.filterMap_append, ← batches]
  cases c <;> rfl

structure AdjGraph where
  edges : List (List ℕ)

/-- `GReduceMax` over the sources and the destinations, from 0. -/
def maxVertexId (edges : Batch) : ℕ :=
  edges.foldl (fun maxId pair => pair.2.foldl max (max maxId pair.1)) 0

/-- `std::sort` of the entries from `first` up to `last`. -/
def sortRange (l : List ℕ) (first last : ℕ) : List ℕ :=
  l.take first ++ ((l.drop first).take (last - first)).mergeSort ++ l.drop last

namespace AdjGraph

def new : AdjGraph := ⟨[]⟩

def out (g : AdjGraph) (src : ℕ) : List ℕ := g.edges.getD src []

def ingest (g : AdjGraph) (edges : Batch) : AdjGraph :=
  ⟨edges.foldl (fun m pair => m.modify pair.1 (· ++ pair.2))
    (resize g.edges [] (max g.edges.length (maxVertexId edges + 1)))⟩

def sortEdges (g : AdjGraph) (src : ℕ) : AdjGraph := ⟨g.edges.modify src (·.mergeSort)⟩

def findEdgeSorted (g : AdjGraph) (src dst : ℕ) : Bool :=
  binarySearch (fun i => (g.out src).getD i 0) 0 (g.out src).length dst

end AdjGraph

def adjGraph : MutableGraph AdjGraph where
  size g := g.edges.length
  getOutDegree g src := (g.out src).length
  ingest := AdjGraph.ingest
  postIngest _ g := g
  forEachEdge := AdjGraph.out
  sortEdges := AdjGraph.sortEdges
  findEdgeSorted := AdjGraph.findEdgeSorted

structure Csr extends AdjGraph where
  vertices : List ℕ
  edgesCompact : List ℕ

namespace Csr

def new : Csr := ⟨.new, [0], []⟩

/-- `m_vertices[i]` -/
def start (g : Csr) (i : ℕ) : ℕ := g.vertices.getD i 0

/-- The prefix sum over the lengths of the lists is a parameter; it is written from index 1 on. -/
def postIngest (computePrefixSum : List (List ℕ) → List ℕ) (schedule : Schedule) (g : Csr) : Csr :=
  if g.edges.length = 0 then g
  else
    let vertices := copyAt (resize g.vertices 0 (g.edges.length + 1)) 1 (computePrefixSum g.edges)
    { g with
      vertices := vertices
      edgesCompact := (schedule.order g.edges.length).foldl
        (fun compact i => copyAt compact (vertices.getD i 0) (g.edges.getD i []))
        (resize g.edgesCompact 0 (vertices.getLastD 0)) }

def forEachEdge (g : Csr) (src : ℕ) : List ℕ :=
  (List.range' (g.start src) (g.start (src + 1) - g.start src)).map fun i =>
    g.edgesCompact.getD i 0

/-- Both ends of the range are the start of the slice. -/
def sortEdges (g : Csr) (src : ℕ) : Csr :=
  { g with edgesCompact := sortRange g.edgesCompact (g.start src) (g.start src) }

def findEdgeSorted (g : Csr) (src dst : ℕ) : Bool :=
  binarySearch (fun i => g.edgesCompact.getD i 0) (g.start src) (g.start (src + 1)) dst

end Csr

def csr (computePrefixSum : List (List ℕ) → List ℕ) : MutableGraph Csr where
  size g := g.vertices.length - 1
  getOutDegree g src := g.start (src + 1) - g.start src
  ingest g edges := { g with toAdjGraph := g.toAdjGraph.ingest edges }
  postIngest := Csr.postIngest computePrefixSum
  forEachEdge := Csr.forEachEdge
  sortEdges := Csr.sortEdges
  findEdgeSorted := Csr.findEdgeSorted

end Scea
