import GraphLogSketch.Scea.MutableGraph

/-! The compressed rows hold the adjacency lists: the slice of each vertex is its list, and the
slices fill the edge array. -/
namespace Scea
open Compaction

section Ingest

/-- The destinations a batch has for a source. -/
def received (b : Batch) (v : ℕ) : List ℕ :=
  b.flatMap fun pair => if pair.1 = v then pair.2 else []

/-- The destinations of a source in all batches. -/
def destinations (bs : List Batch) (v : ℕ) : List ℕ := bs.flatMap fun b => received b v

def vertexCount (bs : List Batch) : ℕ := bs.foldl (fun n b => max n (maxVertexId b + 1)) 0

/-- All ids a batch names. -/
def ids (b : Batch) : List ℕ := b.flatMap fun pair => pair.1 :: pair.2

variable {b b' : Batch} {bs bs' : List Batch} {v d : ℕ}

theorem maxVertexId_eq (b : Batch) : maxVertexId b = (ids b).foldl max 0 := by
  unfold maxVertexId
  generalize 0 = m
  induction b generalizing m with
  | nil => rfl
  | cons pair b ih =>
    have hcons : ids (pair :: b) = (pair.1 :: pair.2) ++ ids b := List.flatMap_cons
    rw [List.foldl_cons, ih, hcons, List.foldl_append, List.foldl_cons]

theorem le_foldl_max {l : List ℕ} {m : ℕ} : m ≤ l.foldl max m ∧ ∀ x ∈ l, x ≤ l.foldl max m := by
  induction l generalizing m with
  | nil => exact ⟨le_rfl, fun x hx => by simp at hx⟩
  | cons y l ih =>
    obtain ⟨hm, hl⟩ := ih (m := max m y)
    refine ⟨(le_max_left m y).trans hm, fun x hx => ?_⟩
    rcases List.mem_cons.mp hx with rfl | hx
    · exact (le_max_right m x).trans hm
    · exact hl x hx

theorem le_maxVertexId (hd : d ∈ ids b) : d ≤ maxVertexId b := by
  rw [maxVertexId_eq]
  exact le_foldl_max.2 d hd

theorem maxVertexId_perm (h : b.Perm b') : maxVertexId b = maxVertexId b' := by
  rw [maxVertexId_eq, maxVertexId_eq]
  exact (h.flatMap_right _).foldl_eq 0

theorem received_perm (h : b.Perm b') (v : ℕ) : (received b v).Perm (received b' v) :=
  h.flatMap_right _

/-- The order in which a batch is taken does not matter for the vertices there are. -/
theorem vertexCount_perm (h : List.Forall₂ List.Perm bs bs') : vertexCount bs = vertexCount bs' := by
  unfold vertexCount
  generalize 0 = n
  induction h generalizing n with
  | nil => rfl
  | cons hb _ ih => rw [List.foldl_cons, List.foldl_cons, maxVertexId_perm hb, ih]

theorem destinations_perm (h : List.Forall₂ List.Perm bs bs') (v : ℕ) :
    (destinations bs v).Perm (destinations bs' v) := by
  induction h with
  | nil => exact .nil
  | cons hb _ ih => exact (received_perm hb v).append ih

theorem foldl_modify {m : List (List ℕ)} (h : ∀ pair ∈ b, pair.1 < m.length) :
    (b.foldl (fun m pair => m.modify pair.1 (· ++ pair.2)) m).length = m.length ∧
      ∀ v, (b.foldl (fun m pair => m.modify pair.1 (· ++ pair.2)) m).getD v [] =
        m.getD v [] ++ received b v := by
  induction b generalizing m with
  | nil => exact ⟨rfl, fun v => by simp [received]⟩
  | cons pair b ih =>
    obtain ⟨hlen, hget⟩ := ih (m := m.modify pair.1 (· ++ pair.2)) fun p hp => by
      rw [List.length_modify]
      exact h p (List.mem_cons_of_mem pair hp)
    rw [List.foldl_cons]
    refine ⟨hlen.trans (List.length_modify ..), fun v => ?_⟩
    have hcons : received (pair :: b) v =
        (if pair.1 = v then pair.2 else []) ++ received b v := List.flatMap_cons
    rw [hget, hcons, ← List.append_assoc]
    congr 1
    by_cases hv : pair.1 = v
    · subst hv
      have hlt := h pair List.mem_cons_self
      simp [hlt]
    · simp [hv]

/-- Ingesting a batch appends what it has for each vertex. -/
theorem ingest_spec (g : AdjGraph) (b : Batch) :
    (g.ingest b).edges.length = max g.edges.length (maxVertexId b + 1) ∧
      ∀ v, (g.ingest b).out v = g.out v ++ received b v := by
  have hlt : ∀ pair ∈ b, pair.1 <
      (resize g.edges [] (max g.edges.length (maxVertexId b + 1))).length := by
    intro pair hpair
    rw [resize_length]
    have hle := le_maxVertexId (List.mem_flatMap.mpr ⟨pair, hpair, List.mem_cons_self⟩)
    omega
  obtain ⟨hlen, hget⟩ := foldl_modify hlt
  refine ⟨hlen.trans (resize_length ..), fun v => (hget v).trans ?_⟩
  congr 1
  exact resize_getD g.edges (le_max_left _ _) v

end Ingest

/-- What a prefix sum writes: entry `i` is the length of the lists up to and with list `i`. -/
def PrefixSums (computePrefixSum : List (List ℕ) → List ℕ) : Prop :=
  ∀ ls, computePrefixSum ls = (List.range ls.length).map fun i => offset ls (i + 1)

/-- Compressed rows of the adjacency lists that the batches give. -/
structure Csr.Ok (bs : List Batch) (g : Csr) : Prop where
  count : g.edges.length = vertexCount bs
  out : ∀ v, g.toAdjGraph.out v = destinations bs v
  vertices : g.vertices = (List.range (g.edges.length + 1)).map (offset g.edges)
  compact : g.edgesCompact = g.edges.flatten

section Csr
variable {computePrefixSum : List (List ℕ) → List ℕ} {bs : List Batch} {g : Csr} {v : ℕ}

theorem Csr.new_ok : Csr.new.Ok [] := ⟨rfl, fun _ => rfl, rfl, rfl⟩

theorem Csr.Ok.vertices_length (h : g.Ok bs) : g.vertices.length = g.edges.length + 1 := by
  rw [h.vertices, List.length_map, List.length_range]

theorem Csr.Ok.start (h : g.Ok bs) (hv : v ≤ g.edges.length) : g.start v = offset g.edges v := by
  rw [Csr.start, h.vertices]
  simp [Nat.lt_succ_of_le hv]

/-- Whatever the arrays held before, `post_ingest` fills them with the offsets and the lists. -/
theorem postIngest_arrays (hsum : PrefixSums computePrefixSum) (schedule : Schedule) (g : Csr)
    (hg : g.edges ≠ []) (hfirst : g.vertices.head? = some 0) :
    (Csr.postIngest computePrefixSum schedule g).vertices =
        (List.range (g.edges.length + 1)).map (offset g.edges) ∧
      (Csr.postIngest computePrefixSum schedule g).edgesCompact = g.edges.flatten := by
  have hpos : g.edges.length ≠ 0 := fun h0 => hg (List.eq_nil_of_length_eq_zero h0)
  obtain ⟨old, hold⟩ : ∃ old, g.vertices = 0 :: old := by
    cases hv : g.vertices with
    | nil => simp [hv] at hfirst
    | cons x old =>
      rw [hv, List.head?_cons, Option.some.injEq] at hfirst
      exact ⟨old, by rw [hfirst]⟩
  have hvertices : copyAt (resize g.vertices 0 (g.edges.length + 1)) 1
      (computePrefixSum g.edges) = (List.range (g.edges.length + 1)).map (offset g.edges) := by
    have htake : (resize g.vertices 0 (g.edges.length + 1)).take 1 = [0] := by
      rw [resize, hold]
      simp
    have hdrop : (resize g.vertices 0 (g.edges.length + 1)).drop
        (1 + (computePrefixSum g.edges).length) = [] := by
      apply List.drop_of_length_le
      rw [resize_length, hsum, List.length_map, List.length_range]
      omega
    rw [copyAt, htake, hdrop, hsum, List.range_succ_eq_map, List.map_cons, List.map_map]
    simp [Function.comp_def]
  unfold Csr.postIngest
  rw [if_neg hpos]
  refine ⟨hvertices, ?_⟩
  have hlast : ((List.range (g.edges.length + 1)).map (offset g.edges)).getLastD 0 =
      offset g.edges g.edges.length := by
    rw [List.range_succ, List.map_append, List.getLastD_eq_getLast?]
    simp
  have hcopies := foldl_copyAt (schedule.perm g.edges.length)
    (resize_length g.edgesCompact 0 (offset g.edges g.edges.length))
  show List.foldl _ (resize _ 0 (List.getLastD _ 0)) _ = _
  rw [hvertices, hlast, ← hcopies]
  apply List.foldl_ext
  intro compact i hi
  have hlt := List.mem_range.mp ((schedule.perm g.edges.length).mem_iff.mp hi)
  congr 1
  simp [Nat.lt_succ_of_lt hlt]

theorem postIngest_toAdjGraph (computePrefixSum : List (List ℕ) → List ℕ) (schedule : Schedule)
    (g : Csr) : (Csr.postIngest computePrefixSum schedule g).toAdjGraph = g.toAdjGraph := by
  unfold Csr.postIngest
  split_ifs
  · rfl
  · rfl

theorem Csr.Ok.batch (h : g.Ok bs) (hsum : PrefixSums computePrefixSum) (edges : Batch)
    (schedule : Schedule) :
    ((csr computePrefixSum).call g (.batch edges schedule)).Ok (bs ++ [edges]) := by
  obtain ⟨hlen, hout⟩ := ingest_spec g.toAdjGraph edges
  obtain ⟨g', hg', hadj, hold⟩ : ∃ g', g' = (csr computePrefixSum).ingest g edges ∧
      g'.toAdjGraph = g.toAdjGraph.ingest edges ∧ g'.vertices = g.vertices := ⟨_, rfl, rfl, rfl⟩
  have hne : g'.edges ≠ [] := by
    intro hnil
    rw [← hadj, hnil] at hlen
    exact absurd hlen.symm (Nat.ne_of_gt (lt_max_of_lt_right (Nat.succ_pos _)))
  have hfirst : g'.vertices.head? = some 0 := by
    rw [hold, h.vertices, List.range_succ_eq_map]
    simp
  obtain ⟨hvertices, hcompact⟩ := postIngest_arrays hsum schedule g' hne hfirst
  have hsame := postIngest_toAdjGraph computePrefixSum schedule g'
  show (Csr.postIngest computePrefixSum schedule ((csr computePrefixSum).ingest g edges)).Ok _
  rw [← hg']
  constructor
  case count =>
    rw [hsame, hadj, hlen, h.count, vertexCount, vertexCount, List.foldl_append]
    rfl
  case out =>
    intro v
    rw [hsame, hadj, hout, h.out, destinations, destinations, List.flatMap_append]
    simp
  case vertices => rw [hvertices, hsame]
  case compact => rw [hcompact, hsame]

/-- Sorting from a position up to itself changes nothing. -/
theorem sortRange_self (l : List ℕ) (first : ℕ) : sortRange l first first = l := by
  rw [sortRange, Nat.sub_self, List.take_zero, List.mergeSort_nil, List.append_nil,
    List.take_append_drop]

theorem Csr.sortEdges_eq (g : Csr) (src : ℕ) : g.sortEdges src = g := by
  rw [Csr.sortEdges, sortRange_self]

theorem csr_calls_ok (hsum : PrefixSums computePrefixSum) (cs : List Call) :
    ((csr computePrefixSum).calls Csr.new cs).Ok (batches cs) := by
  induction cs using List.reverseRecOn with
  | nil => exact Csr.new_ok
  | append_singleton cs c ih =>
    rw [MutableGraph.calls_concat, batches_concat]
    cases c with
    | batch edges schedule => exact ih.batch hsum edges schedule
    | sortEdges src =>
      show (Csr.sortEdges _ src).Ok (batches cs ++ [])
      rw [Csr.sortEdges_eq, List.append_nil]
      exact ih

/-- The slice of a vertex is its list. -/
theorem Csr.Ok.forEachEdge (h : g.Ok bs) (hv : v < vertexCount bs) :
    g.forEachEdge v = destinations bs v := by
  have hv : v < g.edges.length := h.count ▸ hv
  have hsucc := offset_succ hv
  have hlist : g.edges[v] = destinations bs v := by
    rw [← h.out v, AdjGraph.out]
    simp [hv]
  rw [Csr.forEachEdge, h.start hv.le, h.start hv, hsucc, Nat.add_sub_cancel_left, ← hlist]
  have hslice := flatten_slice hv
  rw [← h.compact] at hslice
  apply List.ext_getElem?
  intro k
  by_cases hk : k < g.edges[v].length
  · have hget := congrArg (fun l : List ℕ => l[k]?) hslice
    simp only [List.getElem?_take_of_lt hk, List.getElem?_drop] at hget
    rw [List.getElem?_map, List.getElem?_range' hk]
    simp [hget, hk]
  · rw [List.getElem?_eq_none (by simpa using hk), List.getElem?_eq_none (not_lt.mp hk)]

end Csr

section Adj
variable {bs : List Batch} {g : AdjGraph}

/-- Adjacency lists that the batches give, whatever has been sorted. -/
structure AdjGraph.Ok (bs : List Batch) (g : AdjGraph) : Prop where
  count : g.edges.length = vertexCount bs
  out : ∀ v, (g.out v).Perm (destinations bs v)

theorem AdjGraph.sortEdges_out (g : AdjGraph) (src v : ℕ) :
    ((g.sortEdges src).out v).Perm (g.out v) := by
  rw [AdjGraph.sortEdges, AdjGraph.out, AdjGraph.out]
  by_cases hv : src = v
  · subst hv
    by_cases hlt : src < g.edges.length
    · simp [hlt, List.mergeSort_perm]
    · simp [hlt]
  · simp [hv]

theorem AdjGraph.Ok.sortEdges (h : g.Ok bs) (src : ℕ) : (g.sortEdges src).Ok bs :=
  ⟨(List.length_modify ..).trans h.count, fun v => (AdjGraph.sortEdges_out g src v).trans (h.out v)⟩

theorem adjGraph_calls_ok (cs : List Call) : (adjGraph.calls .new cs).Ok (batches cs) := by
  induction cs using List.reverseRecOn with
  | nil => exact ⟨rfl, fun _ => .nil⟩
  | append_singleton cs c ih =>
    rw [MutableGraph.calls_concat, batches_concat]
    cases c with
    | batch edges schedule =>
      obtain ⟨hlen, hout⟩ := ingest_spec (adjGraph.calls .new cs) edges
      constructor
      case count =>
        show (AdjGraph.ingest _ edges).edges.length = _
        rw [hlen, ih.count, vertexCount, vertexCount, List.foldl_append]
        rfl
      case out =>
        intro v
        show ((AdjGraph.ingest _ edges).out v).Perm _
        rw [hout, destinations, List.flatMap_append]
        refine (ih.out v).append ?_
        simp [Call.edges]
    | sortEdges src =>
      show (AdjGraph.sortEdges _ src).Ok (batches cs ++ [])
      rw [List.append_nil]
      exact ih.sortEdges src

end Adj

/-- Compressed rows and adjacency lists that were given the same batches agree, however they were
sorted in between, and the slices of the vertices are disjoint and fill the edge array. -/
theorem csr_agrees {computePrefixSum : List (List ℕ) → List ℕ}
    (hsum : PrefixSums computePrefixSum) {cs ds : List Call}
    (hsame : List.Forall₂ List.Perm (batches cs) (batches ds)) :
    let C := csr computePrefixSum
    let g := C.calls .new cs
    let a := adjGraph.calls .new ds
    C.size g = adjGraph.size a ∧
      (∀ v < C.size g, C.getOutDegree g v = adjGraph.getOutDegree a v ∧
        (C.forEachEdge g v).Perm (adjGraph.forEachEdge a v)) ∧
      (∀ v < C.size g, g.start v ≤ g.start (v + 1) ∧ g.start (v + 1) ≤ g.edgesCompact.length) ∧
      ∀ i < g.edgesCompact.length, ∃! v, v < C.size g ∧ g.start v ≤ i ∧ i < g.start (v + 1) := by
  intro C g a
  have hg : g.Ok (batches cs) := csr_calls_ok hsum cs
  have ha : a.Ok (batches ds) := adjGraph_calls_ok ds
  have hsize : C.size g = g.edges.length := by
    show g.vertices.length - 1 = _
    rw [hg.vertices_length, Nat.add_sub_cancel]
  have hcount : g.edges.length = a.edges.length := by
    rw [hg.count, ha.count, vertexCount_perm hsame]
  have hlen : g.edgesCompact.length = offset g.edges g.edges.length := by
    rw [hg.compact, offset_length]
  rw [hsize]
  refine ⟨hcount, fun v hv => ?_, fun v hv => ?_, fun i hi => ?_⟩
  · have hvisit : (C.forEachEdge g v).Perm (adjGraph.forEachEdge a v) := by
      show (g.forEachEdge v).Perm (a.out v)
      rw [hg.forEachEdge (hg.count ▸ hv)]
      exact (destinations_perm hsame v).trans (ha.out v).symm
    refine ⟨?_, hvisit⟩
    have hdegree := hvisit.length_eq
    rwa [show C.forEachEdge g v = g.forEachEdge v from rfl, Csr.forEachEdge, List.length_map,
      List.length_range'] at hdegree
  · rw [hg.start hv.le, hg.start hv, hlen]
    exact ⟨offset_le _ (Nat.le_succ v), offset_le _ hv⟩
  · rw [hg.compact] at hi
    obtain ⟨v, ⟨hv, hle, hlt⟩, huniq⟩ := exists_unique_slice hi
    refine ⟨v, ⟨hv, by rwa [hg.start hv.le], by rwa [hg.start hv]⟩, fun u ⟨hu, hule, hult⟩ => ?_⟩
    rw [hg.start hu.le] at hule
    rw [hg.start hu] at hult
    exact huniq u ⟨hu, hule, hult⟩

def prefixSums (ls : List (List ℕ)) : List ℕ :=
  (List.range ls.length).map fun i => offset ls (i + 1)

/-- Two batches: vertex 0 gets the destinations 2 and 1, then vertex 1 gets 2. -/
def twoBatches : List Call :=
  [.batch [(0, [2, 1])] .sequential, .batch [(1, [2])] .sequential]

theorem csr_agrees_two : (csr prefixSums).size ((csr prefixSums).calls .new twoBatches) =
    adjGraph.size (adjGraph.calls .new twoBatches) :=
  (csr_agrees (fun _ => rfl) (List.forall₂_same.mpr fun _ _ => .rfl)).1

end Scea
