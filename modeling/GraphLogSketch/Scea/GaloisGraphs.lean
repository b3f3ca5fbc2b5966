import GraphLogSketch.Scea.Representations

/-! The two graphs that are wrapped around graphs of the library: one is built anew from the adjacency
lists after each batch, the other takes single edges, and no edge twice. -/
namespace Scea

/-- `LC_CSR_64_Graph<void, void>`; the loop over the edges of a node is the list of their ends. -/
structure LcCsr64Graph (γ : Type) where
  construct : (numNodes numEdges : ℕ) → (edgeNum : ℕ → ℕ) → (edgeDst : ℕ → ℕ → ℕ) → γ
  getDegree : γ → ℕ → ℕ
  edges : γ → ℕ → List ℕ
  sortEdgesByDst : γ → ℕ → γ
  findEdgeSortedByDst : γ → ℕ → ℕ → Bool

/-- It has the edges that the functions it is built with tell; each node has its edges sorted by
itself, and a search goes through sorted ones. -/
structure LcCsr64Graph.Lawful {γ : Type} (L : LcCsr64Graph γ) : Prop where
  construct : ∀ numNodes numEdges edgeNum edgeDst,
    ∑ src ∈ Finset.range numNodes, edgeNum src = numEdges → ∀ src < numNodes,
      L.edges (L.construct numNodes numEdges edgeNum edgeDst) src =
        (List.range (edgeNum src)).map (edgeDst src)
  degree : ∀ g src, L.getDegree g src = (L.edges g src).length
  sort : ∀ g src v, L.edges (L.sortEdgesByDst g src) v =
    if v = src then (L.edges g v).mergeSort else L.edges g v
  find : ∀ g src dst, (L.edges g src).Pairwise (· ≤ ·) →
    (L.findEdgeSortedByDst g src dst = true ↔ dst ∈ L.edges g src)

theorem LcCsr64Graph.Lawful.sort_perm {γ : Type} {L : LcCsr64Graph γ} (hL : L.Lawful) (g : γ)
    (src v : ℕ) : (L.edges (L.sortEdgesByDst g src) v).Perm (L.edges g v) := by
  rw [hL.sort]
  split_ifs
  · exact List.mergeSort_perm _ _
  · exact .rfl

/-- There is no graph before the first `post_ingest`. -/
structure LcCsr (γ : Type) extends AdjGraph where
  graph : Option γ

namespace LcCsr
variable {γ : Type} (L : LcCsr64Graph γ)

def new : LcCsr γ := ⟨.new, none⟩

def postIngest (g : LcCsr γ) : LcCsr γ :=
  let numEdgesAccum := (g.edges.map List.length).sum
  { g with
    graph := some (L.construct g.edges.length numEdgesAccum (fun src => (g.out src).length)
      fun src idx => (g.out src).getD idx 0) }

def getOutDegree (g : LcCsr γ) (src : ℕ) : ℕ := g.graph.elim 0 fun graph => L.getDegree graph src

def forEachEdge (g : LcCsr γ) (src : ℕ) : List ℕ := g.graph.elim [] fun graph => L.edges graph src

def sortEdges (g : LcCsr γ) (src : ℕ) : LcCsr γ :=
  { g with graph := g.graph.map fun graph => L.sortEdgesByDst graph src }

def findEdgeSorted (g : LcCsr γ) (src dst : ℕ) : Bool :=
  g.graph.elim false fun graph => L.findEdgeSortedByDst graph src dst

end LcCsr

def lcCsr {γ : Type} (L : LcCsr64Graph γ) : MutableGraph (LcCsr γ) where
  size g := g.edges.length
  getOutDegree := LcCsr.getOutDegree L
  ingest g edges := { g with toAdjGraph := g.toAdjGraph.ingest edges }
  postIngest _ := LcCsr.postIngest L
  forEachEdge := LcCsr.forEachEdge L
  sortEdges := LcCsr.sortEdges L
  findEdgeSorted := LcCsr.findEdgeSorted L

/-- The adjacency lists are never sorted, and the graph that was built last has their edges. -/
structure LcCsr.Ok {γ : Type} (L : LcCsr64Graph γ) (bs : List Batch) (g : LcCsr γ) : Prop where
  count : g.edges.length = vertexCount bs
  out : ∀ v, g.toAdjGraph.out v = destinations bs v
  null : g.graph = none → bs = []
  edges : ∀ graph ∈ g.graph, ∀ v < vertexCount bs, (L.edges graph v).Perm (destinations bs v)

section LcCsr
variable {γ : Type} {L : LcCsr64Graph γ} {bs : List Batch} {g : LcCsr γ}

theorem LcCsr.new_ok : LcCsr.Ok L [] .new where
  count := rfl
  out _ := rfl
  null _ := rfl
  edges graph h := absurd h (Option.not_mem_none graph)

/-- The edges of all vertices are counted. -/
theorem sum_out (g : AdjGraph) :
    ∑ src ∈ Finset.range g.edges.length, (g.out src).length = (g.edges.map List.length).sum := by
  rw [← PageRank.sum_map_range]
  congr 1
  apply List.ext_getElem
  · simp
  · intro i hi _
    have hi : i < g.edges.length := by simpa using hi
    simp [AdjGraph.out, hi]

theorem map_getD_range (l : List ℕ) : ((List.range l.length).map fun i => l.getD i 0) = l := by
  apply List.ext_getElem
  · simp
  · intro i hi _
    have hi : i < l.length := by simpa using hi
    simp [hi]

theorem LcCsr.Ok.batch (h : g.Ok L bs) (hL : L.Lawful) (edges : Batch) (schedule : Schedule) :
    LcCsr.Ok L (bs ++ [edges]) ((lcCsr L).call g (.batch edges schedule)) := by
  obtain ⟨hlen, hout⟩ := ingest_spec g.toAdjGraph edges
  have hcount : (g.toAdjGraph.ingest edges).edges.length = vertexCount (bs ++ [edges]) := by
    rw [hlen, h.count, vertexCount, vertexCount, List.foldl_append]
    rfl
  have hdests (v : ℕ) : (g.toAdjGraph.ingest edges).out v = destinations (bs ++ [edges]) v := by
    rw [hout, h.out, destinations, destinations, List.flatMap_append]
    simp
  constructor
  case count => exact hcount
  case out => exact hdests
  case null => exact fun hnull => absurd hnull (Option.some_ne_none _)
  case edges =>
    intro graph hgraph v hv
    obtain rfl := Option.some.inj hgraph
    have hlt : v < (g.toAdjGraph.ingest edges).edges.length := hcount ▸ hv
    have hedges := hL.construct _ _ (fun src => ((g.toAdjGraph.ingest edges).out src).length)
      (fun src idx => ((g.toAdjGraph.ingest edges).out src).getD idx 0)
      (sum_out (g.toAdjGraph.ingest edges)) v hlt
    rw [map_getD_range, hdests] at hedges
    exact .of_eq hedges

theorem LcCsr.Ok.sortEdges (h : g.Ok L bs) (hL : L.Lawful) (src : ℕ) :
    LcCsr.Ok L bs (LcCsr.sortEdges L g src) where
  count := h.count
  out := h.out
  null hnull := h.null (Option.map_eq_none_iff.mp hnull)
  edges := by
    intro graph hgraph v hv
    obtain ⟨graph, hold, rfl⟩ := Option.map_eq_some_iff.mp hgraph
    exact (hL.sort_perm graph src v).trans (h.edges graph hold v hv)

theorem LcCsr.Ok.holds (h : g.Ok L bs) (hL : L.Lawful) : Holds (lcCsr L) g (.ofBatches bs) := by
  constructor
  case size => exact h.count
  case degree =>
    intro v
    show LcCsr.getOutDegree L g v = (LcCsr.forEachEdge L g v).length
    unfold LcCsr.getOutDegree LcCsr.forEachEdge
    cases g.graph with
    | none => rfl
    | some graph => exact hL.degree graph v
  case out =>
    intro v hv
    show (LcCsr.forEachEdge L g v).Perm _
    unfold LcCsr.forEachEdge
    rcases hgraph : g.graph with - | graph
    · have hv : v < vertexCount bs := hv
      rw [h.null hgraph] at hv
      exact absurd hv (Nat.not_lt_zero v)
    · exact h.edges graph hgraph v hv

theorem lcCsr_calls_ok (hL : L.Lawful) (cs : List Call) :
    LcCsr.Ok L (batches cs) ((lcCsr L).calls .new cs) := by
  induction cs using List.reverseRecOn with
  | nil => exact LcCsr.new_ok
  | append_singleton cs c ih =>
    rw [MutableGraph.calls_concat, batches_concat]
    cases c with
    | batch edges schedule => exact ih.batch hL edges schedule
    | sortEdges src =>
      show LcCsr.Ok L (batches cs ++ []) _
      rw [List.append_nil]
      exact ih.sortEdges hL src

end LcCsr

/-- `MorphGraph<uint64_t, void, true>` with its nodes; the loop over the edges of a node is the list of the
nodes they lead to. -/
structure GaloisMorphGraph (γ ν : Type) where
  empty : γ
  size : γ → ℕ
  containsNode : γ → ν → Prop
  createNode : γ → ℕ → ν × γ
  addNode : γ → ν → γ
  addEdge : γ → ν → ν → γ
  edges : γ → ν → List ν
  getData : γ → ν → ℕ
  edgesSorted : γ → ν → Prop
  sortEdgesByDst : γ → ν → γ
  findEdgeSortedByDst : γ → ν → ν → Bool

namespace GaloisMorphGraph
variable {γ ν : Type} (M : GaloisMorphGraph γ ν)

/-- A node that was not there before, without edges. -/
structure NodeAdded (g : γ) (i : ℕ) (n : ν) (g' : γ) : Prop where
  fresh : ¬ M.containsNode g n
  contains : ∀ m, M.containsNode g' m ↔ M.containsNode g m ∨ m = n
  size : M.size g' = M.size g + 1
  data : M.getData g' n = i
  edges : M.edges g' n = []
  dataOf : ∀ m, M.containsNode g m → M.getData g' m = M.getData g m
  edgesOf : ∀ m, M.containsNode g m → M.edges g' m = M.edges g m

/-- The nodes are those there were. -/
structure NodesKept (g g' : γ) : Prop where
  contains : ∀ m, M.containsNode g' m ↔ M.containsNode g m
  size : M.size g' = M.size g
  data : ∀ m, M.containsNode g m → M.getData g' m = M.getData g m

/-- An edge that is there already is not added again. -/
structure EdgeAdded (g : γ) (a b : ν) (g' : γ) : Prop where
  nodes : M.NodesKept g g'
  absent : b ∉ M.edges g a → (M.edges g' a).Perm (b :: M.edges g a)
  present : b ∈ M.edges g a → (M.edges g' a).Perm (M.edges g a)
  edgesOf : ∀ m, m ≠ a → M.edges g' m = M.edges g m

/-- The edges of a node are sorted, in an order of the nodes. -/
structure EdgesSorted (g : γ) (a : ν) (g' : γ) : Prop where
  nodes : M.NodesKept g g'
  sorted : M.edgesSorted g' a
  edges : (M.edges g' a).Perm (M.edges g a)
  sortedOf : ∀ m, m ≠ a → M.edgesSorted g m → M.edgesSorted g' m
  edgesOf : ∀ m, m ≠ a → M.edges g' m = M.edges g m

structure Lawful : Prop where
  empty : M.size M.empty = 0
  addNode : ∀ g i, M.NodeAdded g i (M.createNode g i).1
    (M.addNode (M.createNode g i).2 (M.createNode g i).1)
  addEdge : ∀ g a b, M.containsNode g a → M.containsNode g b →
    M.EdgeAdded g a b (M.addEdge g a b)
  sort : ∀ g a, M.containsNode g a → M.EdgesSorted g a (M.sortEdgesByDst g a)
  find : ∀ g a b, M.containsNode g a → M.containsNode g b → M.edgesSorted g a →
    (M.findEdgeSortedByDst g a b = true ↔ b ∈ M.edges g a)

end GaloisMorphGraph

structure MorphGraph (γ ν : Type) where
  graph : γ
  vertices : List ν

namespace MorphGraph
variable {γ ν : Type} (M : GaloisMorphGraph γ ν)

def new : MorphGraph γ ν := ⟨M.empty, []⟩

def addVertex (g : MorphGraph γ ν) (i : ℕ) : MorphGraph γ ν :=
  let (n, graph) := M.createNode g.graph i
  ⟨M.addNode graph n, g.vertices ++ [n]⟩

def addEdge (g : MorphGraph γ ν) (src dst : ℕ) : MorphGraph γ ν :=
  match g.vertices[src]?, g.vertices[dst]? with
  | some a, some b => { g with graph := M.addEdge g.graph a b }
  | _, _ => g

def ingest (g : MorphGraph γ ν) (edges : Batch) : MorphGraph γ ν :=
  let g := (List.range' g.vertices.length (maxVertexId edges + 1 - g.vertices.length)).foldl
    (addVertex M) g
  edges.foldl (fun g pair => pair.2.foldl (fun g dst => addEdge M g pair.1 dst) g) g

def getOutDegree (g : MorphGraph γ ν) (src : ℕ) : ℕ :=
  match g.vertices[src]? with
  | some n => (M.edges g.graph n).length
  | none => 0

def forEachEdge (g : MorphGraph γ ν) (src : ℕ) : List ℕ :=
  match g.vertices[src]? with
  | some n => (M.edges g.graph n).map (M.getData g.graph)
  | none => []

def sortEdges (g : MorphGraph γ ν) (src : ℕ) : MorphGraph γ ν :=
  match g.vertices[src]? with
  | some n => { g with graph := M.sortEdgesByDst g.graph n }
  | none => g

def findEdgeSorted (g : MorphGraph γ ν) (src dst : ℕ) : Bool :=
  match g.vertices[src]?, g.vertices[dst]? with
  | some a, some b => M.findEdgeSortedByDst g.graph a b
  | _, _ => false

end MorphGraph

def morphGraph {γ ν : Type} (M : GaloisMorphGraph γ ν) : MutableGraph (MorphGraph γ ν) where
  size g := M.size g.graph
  getOutDegree := MorphGraph.getOutDegree M
  ingest := MorphGraph.ingest M
  postIngest _ g := g
  forEachEdge := MorphGraph.forEachEdge M
  sortEdges := MorphGraph.sortEdges M
  findEdgeSorted := MorphGraph.findEdgeSorted M

/-- The vertices below `n` have a node each, and a node has an edge wherever its vertex has one. -/
structure MorphGraph.Ok {γ ν : Type} (M : GaloisMorphGraph γ ν) (n : ℕ) (out : ℕ → List ℕ)
    (node : ℕ → ν) (g : MorphGraph γ ν) : Prop where
  vertices : g.vertices = (List.range n).map node
  size : M.size g.graph = n
  contains : ∀ v < n, M.containsNode g.graph (node v)
  data : ∀ v < n, M.getData g.graph (node v) = v
  edges : ∀ v < n, (M.edges g.graph (node v)).Perm ((out v).dedup.map node)
  within : ∀ v, ∀ d ∈ out v, v < n ∧ d < n

section MorphGraph
variable {γ ν : Type} {M : GaloisMorphGraph γ ν} {n : ℕ} {out : ℕ → List ℕ} {node : ℕ → ν}
  {g : MorphGraph γ ν}

theorem MorphGraph.Ok.vertex (h : g.Ok M n out node) {v : ℕ} (hv : v < n) :
    g.vertices[v]? = some (node v) := by
  rw [h.vertices, List.getElem?_map, List.getElem?_range hv]
  rfl

theorem MorphGraph.Ok.node_inj (h : g.Ok M n out node) {u v : ℕ} (hu : u < n) (hv : v < n)
    (heq : node u = node v) : u = v := by
  have hdata := congrArg (M.getData g.graph) heq
  rwa [h.data u hu, h.data v hv] at hdata

theorem MorphGraph.new_ok (hM : M.Lawful) (node : ℕ → ν) :
    (MorphGraph.new M).Ok M 0 (fun _ => []) node where
  vertices := rfl
  size := hM.empty
  contains _ hv := absurd hv (Nat.not_lt_zero _)
  data _ hv := absurd hv (Nat.not_lt_zero _)
  edges _ hv := absurd hv (Nat.not_lt_zero _)
  within _ _ hd := absurd hd List.not_mem_nil

/-- The next vertex gets a node of its own. -/
theorem MorphGraph.Ok.addVertex (h : g.Ok M n out node) (hM : M.Lawful) :
    ∃ node', (MorphGraph.addVertex M g n).Ok M (n + 1) out node' := by
  have hadded := hM.addNode g.graph n
  set new := (M.createNode g.graph n).1
  set graph := M.addNode (M.createNode g.graph n).2 new
  have hg : MorphGraph.addVertex M g n = ⟨graph, g.vertices ++ [new]⟩ := rfl
  have hold {v : ℕ} (hv : v < n) : Function.update node n new v = node v :=
    Function.update_of_ne hv.ne ..
  refine ⟨Function.update node n new, ?_⟩
  rw [hg]
  constructor
  case vertices =>
    show g.vertices ++ [new] = _
    rw [h.vertices, List.range_succ, List.map_append]
    congr 1
    · exact List.map_congr_left fun v hv => (hold (List.mem_range.mp hv)).symm
    · simp
  case size => exact hadded.size.trans (congrArg Nat.succ h.size)
  case contains =>
    intro v hv
    rcases Nat.lt_succ_iff_lt_or_eq.mp hv with hv | rfl
    · rw [hold hv]
      exact (hadded.contains _).mpr (Or.inl (h.contains v hv))
    · rw [Function.update_self]
      exact (hadded.contains _).mpr (Or.inr rfl)
  case data =>
    intro v hv
    rcases Nat.lt_succ_iff_lt_or_eq.mp hv with hv | rfl
    · rw [hold hv]
      exact (hadded.dataOf _ (h.contains v hv)).trans (h.data v hv)
    · rw [Function.update_self]
      exact hadded.data
  case edges =>
    intro v hv
    have hmap : (out v).dedup.map (Function.update node n new) = (out v).dedup.map node :=
      List.map_congr_left fun d hd => hold (h.within v d (List.mem_dedup.mp hd)).2
    rw [hmap]
    rcases Nat.lt_succ_iff_lt_or_eq.mp hv with hv | rfl
    · rw [hold hv, hadded.edgesOf _ (h.contains v hv)]
      exact h.edges v hv
    · have hnone : out v = [] := by
        apply List.eq_nil_iff_forall_not_mem.mpr
        exact fun d hd => absurd (h.within v d hd).1 (lt_irrefl v)
      rw [Function.update_self, hadded.edges, hnone]
      exact .nil
  case within =>
    intro v d hd
    obtain ⟨hv, hd⟩ := h.within v d hd
    exact ⟨Nat.lt_succ_of_lt hv, Nat.lt_succ_of_lt hd⟩

theorem MorphGraph.Ok.addVertices (h : g.Ok M n out node) (hM : M.Lawful) (k : ℕ) :
    ∃ node', ((List.range' n k).foldl (MorphGraph.addVertex M) g).Ok M (n + k) out node' := by
  induction k with
  | zero => exact ⟨node, h⟩
  | succ k ih =>
    obtain ⟨node', h'⟩ := ih
    rw [List.range'_concat, List.foldl_append, one_mul]
    exact h'.addVertex hM

/-- One more destination, unless it is one already. -/
theorem dedup_concat_perm (l : List ℕ) (d : ℕ) :
    (l ++ [d]).dedup.Perm (if d ∈ l then l.dedup else d :: l.dedup) := by
  have hnodup : (if d ∈ l then l.dedup else d :: l.dedup).Nodup := by
    split_ifs with hd
    · exact List.nodup_dedup l
    · exact List.nodup_cons.mpr ⟨fun h => hd (List.mem_dedup.mp h), List.nodup_dedup l⟩
  refine (List.perm_ext_iff_of_nodup (List.nodup_dedup _) hnodup).mpr fun a => ?_
  split_ifs with hd
  · by_cases ha : a = d
    · simp [ha, hd]
    · simp [ha]
  · simp [or_comm]

theorem MorphGraph.Ok.mem_edges (h : g.Ok M n out node) {src dst : ℕ} (hsrc : src < n)
    (hdst : dst < n) : node dst ∈ M.edges g.graph (node src) ↔ dst ∈ out src := by
  rw [(h.edges src hsrc).mem_iff]
  constructor
  · intro hmem
    obtain ⟨d, hd, heq⟩ := List.mem_map.mp hmem
    have hd := List.mem_dedup.mp hd
    exact h.node_inj (h.within src d hd).2 hdst heq ▸ hd
  · exact fun hd => List.mem_map_of_mem (List.mem_dedup.mpr hd)

/-- An edge between two vertices. -/
theorem MorphGraph.Ok.addEdge (h : g.Ok M n out node) (hM : M.Lawful) {src dst : ℕ}
    (hsrc : src < n) (hdst : dst < n) :
    (MorphGraph.addEdge M g src dst).Ok M n (Function.update out src (out src ++ [dst])) node := by
  have hadded := hM.addEdge g.graph _ _ (h.contains src hsrc) (h.contains dst hdst)
  have hg : MorphGraph.addEdge M g src dst =
      { g with graph := M.addEdge g.graph (node src) (node dst) } := by
    unfold MorphGraph.addEdge
    rw [h.vertex hsrc, h.vertex hdst]
  have hmem := h.mem_edges hsrc hdst
  rw [hg]
  constructor
  case vertices => exact h.vertices
  case size => exact hadded.nodes.size.trans h.size
  case contains => exact fun v hv => (hadded.nodes.contains _).mpr (h.contains v hv)
  case data => exact fun v hv => (hadded.nodes.data _ (h.contains v hv)).trans (h.data v hv)
  case edges =>
    intro v hv
    by_cases hvs : v = src
    · subst hvs
      rw [Function.update_self]
      have hold := h.edges v hv
      have hnew := (dedup_concat_perm (out v) dst).map node
      refine List.Perm.trans ?_ hnew.symm
      split_ifs with hd
      · exact (hadded.present (hmem.mpr hd)).trans hold
      · exact (hadded.absent fun hin => hd (hmem.mp hin)).trans (hold.cons _)
    · rw [Function.update_of_ne hvs]
      have hne : node v ≠ node src := fun heq => hvs (h.node_inj hv hsrc heq)
      show (M.edges (M.addEdge g.graph (node src) (node dst)) (node v)).Perm _
      rw [hadded.edgesOf _ hne]
      exact h.edges v hv
  case within =>
    intro v d hd
    by_cases hvs : v = src
    · subst hvs
      rw [Function.update_self] at hd
      rcases List.mem_append.mp hd with hd | hd
      · exact h.within v d hd
      · exact ⟨hsrc, List.mem_singleton.mp hd ▸ hdst⟩
    · rw [Function.update_of_ne hvs] at hd
      exact h.within v d hd

/-- The destinations that a source has in a batch. -/
theorem MorphGraph.Ok.addDsts (h : g.Ok M n out node) (hM : M.Lawful) {src : ℕ} (hsrc : src < n)
    {dsts : List ℕ} (hdsts : ∀ d ∈ dsts, d < n) :
    (dsts.foldl (fun g dst => MorphGraph.addEdge M g src dst) g).Ok M n
      (Function.update out src (out src ++ dsts)) node := by
  induction dsts generalizing g out with
  | nil => simpa using h
  | cons d dsts ih =>
    have hstep := h.addEdge hM hsrc (hdsts d List.mem_cons_self)
    have hrest := ih hstep fun e he => hdsts e (List.mem_cons_of_mem d he)
    rwa [Function.update_self, Function.update_idem, List.append_assoc] at hrest

theorem MorphGraph.Ok.addPairs (h : g.Ok M n out node) (hM : M.Lawful) {b : Batch}
    (hids : ∀ d ∈ ids b, d < n) :
    (b.foldl (fun g pair => pair.2.foldl (fun g dst => MorphGraph.addEdge M g pair.1 dst) g) g).Ok
      M n (fun v => out v ++ received b v) node := by
  induction b generalizing g out with
  | nil => simpa [received] using h
  | cons pair b ih =>
    have hcons : ids (pair :: b) = (pair.1 :: pair.2) ++ ids b := List.flatMap_cons
    have hpair : ∀ d ∈ pair.1 :: pair.2, d < n := fun d hd =>
      hids d (hcons ▸ List.mem_append_left _ hd)
    have hstep := h.addDsts hM (hpair pair.1 List.mem_cons_self) fun d hd =>
      hpair d (List.mem_cons_of_mem _ hd)
    have hrest := ih hstep fun d hd => hids d (hcons ▸ List.mem_append_right _ hd)
    have hout : (fun v => Function.update out pair.1 (out pair.1 ++ pair.2) v ++ received b v) =
        fun v => out v ++ received (pair :: b) v := by
      funext v
      have hreceived : received (pair :: b) v =
          (if pair.1 = v then pair.2 else []) ++ received b v := List.flatMap_cons
      rw [hreceived]
      by_cases hv : v = pair.1
      · subst hv
        simp
      · simp [hv, Ne.symm hv]
    rwa [hout] at hrest

theorem MorphGraph.Ok.sortEdges_eq (h : g.Ok M n out node) {src : ℕ} (hsrc : src < n) :
    MorphGraph.sortEdges M g src = { g with graph := M.sortEdgesByDst g.graph (node src) } := by
  unfold MorphGraph.sortEdges
  rw [h.vertex hsrc]

theorem MorphGraph.Ok.sortEdges (h : g.Ok M n out node) (hM : M.Lawful) (src : ℕ) :
    (MorphGraph.sortEdges M g src).Ok M n out node := by
  by_cases hsrc : src < n
  · have hsorted := hM.sort g.graph _ (h.contains src hsrc)
    rw [h.sortEdges_eq hsrc]
    constructor
    case vertices => exact h.vertices
    case size => exact hsorted.nodes.size.trans h.size
    case contains => exact fun v hv => (hsorted.nodes.contains _).mpr (h.contains v hv)
    case data => exact fun v hv => (hsorted.nodes.data _ (h.contains v hv)).trans (h.data v hv)
    case edges =>
      intro v hv
      refine List.Perm.trans ?_ (h.edges v hv)
      by_cases hvs : node v = node src
      · rw [hvs]
        exact hsorted.edges
      · exact .of_eq (hsorted.edgesOf _ hvs)
    case within => exact h.within
  · have hnone : g.vertices[src]? = none := by
      rw [h.vertices]
      simpa using hsrc
    have hg : MorphGraph.sortEdges M g src = g := by
      unfold MorphGraph.sortEdges
      rw [hnone]
    rwa [hg]

theorem MorphGraph.Ok.ingest {bs : List Batch}
    (h : g.Ok M (vertexCount bs) (destinations bs) node) (hM : M.Lawful) (b : Batch) :
    ∃ node', (MorphGraph.ingest M g b).Ok M (vertexCount (bs ++ [b])) (destinations (bs ++ [b]))
      node' := by
  have hlen : g.vertices.length = vertexCount bs := by
    rw [h.vertices, List.length_map, List.length_range]
  have hcount : vertexCount (bs ++ [b]) =
      vertexCount bs + (maxVertexId b + 1 - vertexCount bs) := by
    rw [vertexCount, List.foldl_append, ← vertexCount]
    show max (vertexCount bs) (maxVertexId b + 1) = _
    omega
  have hdests : destinations (bs ++ [b]) = fun v => destinations bs v ++ received b v := by
    funext v
    rw [destinations, destinations, List.flatMap_append]
    simp
  obtain ⟨node', h'⟩ := h.addVertices hM (maxVertexId b + 1 - vertexCount bs)
  rw [← hcount] at h'
  refine ⟨node', ?_⟩
  rw [hdests, MorphGraph.ingest, hlen]
  apply h'.addPairs hM
  intro d hd
  have hle := le_maxVertexId hd
  omega

/-- What the graph stands for has no parallel edges. -/
theorem MorphGraph.Ok.holds {bs : List Batch}
    (h : g.Ok M (vertexCount bs) (destinations bs) node) :
    Holds (morphGraph M) g (EdgeLists.ofBatches bs).simple := by
  constructor
  case size => exact h.size
  case degree =>
    intro v
    show MorphGraph.getOutDegree M g v = (MorphGraph.forEachEdge M g v).length
    unfold MorphGraph.getOutDegree MorphGraph.forEachEdge
    split
    · rw [List.length_map]
    · rfl
  case out =>
    intro v hv
    have hv : v < vertexCount bs := hv
    show (MorphGraph.forEachEdge M g v).Perm (destinations bs v).dedup
    unfold MorphGraph.forEachEdge
    rw [h.vertex hv]
    refine ((h.edges v hv).map _).trans (.of_eq ?_)
    rw [List.map_map]
    refine (List.map_congr_left fun d hd => ?_).trans (List.map_id _)
    exact h.data d (h.within v d (List.mem_dedup.mp hd)).2

theorem morphGraph_calls_ok (hM : M.Lawful) (cs : List Call) :
    ∃ node, ((morphGraph M).calls (.new M) cs).Ok M (vertexCount (batches cs))
      (destinations (batches cs)) node := by
  induction cs using List.reverseRecOn with
  | nil => exact ⟨fun _ => (M.createNode M.empty 0).1, MorphGraph.new_ok hM _⟩
  | append_singleton cs c ih =>
    obtain ⟨node, h⟩ := ih
    rw [MutableGraph.calls_concat, batches_concat]
    cases c with
    | batch edges schedule => exact h.ingest hM edges
    | sortEdges src =>
      have hnone : (Call.sortEdges src).edges.toList = [] := rfl
      rw [hnone, List.append_nil]
      exact ⟨node, h.sortEdges hM src⟩

end MorphGraph

end Scea
