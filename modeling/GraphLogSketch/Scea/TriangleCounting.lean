import GraphLogSketch.Scea.CompressedRows

/-! Triangle counting, which sorts the edges of every vertex and then looks edges up by binary search.
On compressed rows the sort has an empty range, so a lookup searches the edges as they were
ingested. -/
namespace Scea
open BinarySearch Compaction

namespace TriangleCounting
variable {σ : Type} (G : MutableGraph σ)

/-- The first loop. -/
def sortAll (schedule : Schedule) (g : σ) : σ := (schedule.order (G.size g)).foldl G.sortEdges g

/-- The second loop. -/
def triangles (g : σ) : ℕ :=
  ((List.range (G.size g)).map fun v0 =>
    ((G.forEachEdge g v0).map fun v1 =>
      if v0 ≥ v1 then 0
      else (G.forEachEdge g v1).countP fun v2 => v1 < v2 && G.findEdgeSorted g v0 v2).sum).sum

def compute (schedule : Schedule) (g : σ) : UInt64 :=
  UInt64.ofNat (triangles G (sortAll G schedule g))

/-- Two graphs with the same edges have the same triangles when their lookups agree. -/
theorem triangles_congr {τ : Type} {G : MutableGraph σ} {K : MutableGraph τ} {g : σ} {k : τ}
    (hsize : G.size g = K.size k)
    (hedges : ∀ v < G.size g, (G.forEachEdge g v).Perm (K.forEachEdge k v))
    (hbound : ∀ v < G.size g, ∀ d ∈ G.forEachEdge g v, d < G.size g)
    (hfind : ∀ v < G.size g, ∀ d, G.findEdgeSorted g v d = K.findEdgeSorted k v d) :
    triangles G g = triangles K k := by
  unfold triangles
  rw [← hsize]
  congr 1
  apply List.map_congr_left
  intro v0 h0
  have h0 := List.mem_range.mp h0
  have hinner : ((G.forEachEdge g v0).map fun v1 => if v0 ≥ v1 then 0
      else (G.forEachEdge g v1).countP fun v2 => v1 < v2 && G.findEdgeSorted g v0 v2) =
      (G.forEachEdge g v0).map fun v1 => if v0 ≥ v1 then 0
        else (K.forEachEdge k v1).countP fun v2 => v1 < v2 && K.findEdgeSorted k v0 v2 := by
    apply List.map_congr_left
    intro v1 h1
    split_ifs with hle
    · rfl
    · rw [(hedges v1 (hbound v0 h0 v1 h1)).countP_eq]
      apply List.countP_congr
      intro v2 _
      rw [hfind v0 h0 v2]
  rw [hinner]
  exact ((hedges v0 h0).map _).sum_eq

end TriangleCounting

section Lookup
variable {computePrefixSum : List (List ℕ) → List ℕ} {bs : List Batch} {v d : ℕ}

/-- A destination the search meets among the edges of a vertex in the order of ingestion. -/
def MetBySearch (bs : List Batch) (v d : ℕ) : Prop :=
  Met (fun i => (destinations bs v).getD i 0) 0 (destinations bs v).length d

/-- Sorting changes nothing, so a lookup searches the list as it was ingested. -/
theorem Csr.Ok.findEdgeSorted {g : Csr} (h : g.Ok bs) (hv : v < vertexCount bs) :
    g.findEdgeSorted v d = searchList (destinations bs v) d := by
  have hvisit := h.forEachEdge hv
  have hlt : v < g.edges.length := h.count ▸ hv
  have hstart := h.start hlt.le
  have hend := h.start hlt
  have hlen : (destinations bs v).length = g.start (v + 1) - g.start v := by
    rw [← hvisit, Csr.forEachEdge, List.length_map, List.length_range']
  have hle : g.start v ≤ g.start (v + 1) := by
    rw [hstart, hend]
    exact offset_le _ (Nat.le_succ v)
  apply binarySearch_eq_searchList (by omega)
  intro i hi
  rw [← hvisit, Csr.forEachEdge]
  simp [hlen ▸ hi]

/-- What a batch names is a vertex. -/
theorem lt_vertexCount_of_mem {bs : List Batch} {b : Batch} (hb : b ∈ bs) (hd : d ∈ ids b) :
    d < vertexCount bs := by
  have hle := le_maxVertexId hd
  have hmono (n : ℕ) : ∀ bs : List Batch,
      n ≤ bs.foldl (fun n b => max n (maxVertexId b + 1)) n ∧
        ∀ b ∈ bs, maxVertexId b + 1 ≤ bs.foldl (fun n b => max n (maxVertexId b + 1)) n := by
    intro bs
    induction bs generalizing n with
    | nil => exact ⟨le_rfl, fun b hb => by simp at hb⟩
    | cons b bs ih =>
      obtain ⟨hn, hbs⟩ := ih (max n (maxVertexId b + 1))
      refine ⟨(le_max_left ..).trans hn, fun c hc => ?_⟩
      rcases List.mem_cons.mp hc with rfl | hc
      · exact (le_max_right ..).trans hn
      · exact hbs c hc
  exact Nat.lt_of_lt_of_le (Nat.lt_succ_of_le hle) ((hmono 0 bs).2 b hb)

theorem lt_vertexCount (hd : d ∈ destinations bs v) : v < vertexCount bs ∧ d < vertexCount bs := by
  obtain ⟨b, hb, hrec⟩ := List.mem_flatMap.mp hd
  obtain ⟨pair, hpair, hmem⟩ := List.mem_flatMap.mp hrec
  split_ifs at hmem with heq
  · constructor
    · exact lt_vertexCount_of_mem hb
        (List.mem_flatMap.mpr ⟨pair, hpair, heq ▸ List.mem_cons_self⟩)
    · exact lt_vertexCount_of_mem hb
        (List.mem_flatMap.mpr ⟨pair, hpair, List.mem_cons_of_mem _ hmem⟩)
  · simp at hmem

end Lookup
section Sorted
variable {bs : List Batch} {g : AdjGraph} {v d : ℕ}

theorem mergeSort_sorted (l : List ℕ) : l.mergeSort.Pairwise (· ≤ ·) := by
  have hsorted : l.mergeSort.Pairwise fun a b => decide (a ≤ b) = true :=
    List.pairwise_mergeSort (fun a b c => by simpa using le_trans)
      (fun a b => by simpa using le_total a b) l
  simpa using hsorted

/-- Sorting sorts its vertex and leaves sorted vertices sorted. -/
theorem AdjGraph.sortEdges_sorted (g : AdjGraph) (src : ℕ)
    (h : src = v ∨ (g.out v).Pairwise (· ≤ ·)) :
    ((g.sortEdges src).out v).Pairwise (· ≤ ·) := by
  rw [AdjGraph.sortEdges, AdjGraph.out]
  by_cases hv : src = v
  · subst hv
    by_cases hlt : src < g.edges.length
    · simpa [hlt] using mergeSort_sorted g.edges[src]
    · simp [hlt]
  · have hsame : (g.edges.modify src (·.mergeSort)).getD v [] = g.out v := by
      simp [AdjGraph.out, hv]
    rw [hsame]
    exact h.resolve_left hv

theorem foldl_sortEdges (order : List ℕ) (h : g.Ok bs) :
    (order.foldl AdjGraph.sortEdges g).Ok bs ∧
      ∀ v, v ∈ order ∨ (g.out v).Pairwise (· ≤ ·) →
        ((order.foldl AdjGraph.sortEdges g).out v).Pairwise (· ≤ ·) := by
  induction order generalizing g with
  | nil => exact ⟨h, fun v hv => hv.resolve_left (by simp)⟩
  | cons src order ih =>
    obtain ⟨hok, hsorted⟩ := ih (h.sortEdges src)
    refine ⟨hok, fun v hv => hsorted v ?_⟩
    rcases hv with hmem | hold
    · rcases List.mem_cons.mp hmem with rfl | hmem
      · exact Or.inr (g.sortEdges_sorted v (Or.inl rfl))
      · exact Or.inl hmem
    · exact Or.inr (g.sortEdges_sorted src (Or.inr hold))

open TriangleCounting

theorem AdjGraph.Ok.sortAll (h : g.Ok bs) (schedule : Schedule) :
    (sortAll adjGraph schedule g).Ok bs :=
  (foldl_sortEdges (schedule.order (adjGraph.size g)) h).1

/-- On adjacency lists a lookup after the first loop is membership. -/
theorem AdjGraph.Ok.findEdgeSorted (h : g.Ok bs) (schedule : Schedule) (hv : v < vertexCount bs)
    (d : ℕ) : (TriangleCounting.sortAll adjGraph schedule g).findEdgeSorted v d = true ↔
      d ∈ destinations bs v := by
  obtain ⟨hok, hsorted⟩ := foldl_sortEdges (schedule.order (adjGraph.size g)) h
  have hmem : v ∈ schedule.order (adjGraph.size g) := by
    rw [(schedule.perm _).mem_iff, List.mem_range]
    exact hv.trans_eq h.count.symm
  rw [← (hok.out v).mem_iff]
  exact searchList_of_sorted (hsorted v (Or.inl hmem))

end Sorted

section Result
open TriangleCounting
variable {computePrefixSum : List (List ℕ) → List ℕ} {cs ds : List Call}

theorem csr_sortAll (computePrefixSum : List (List ℕ) → List ℕ) (schedule : Schedule) (g : Csr) :
    sortAll (csr computePrefixSum) schedule g = g := by
  unfold sortAll
  induction schedule.order _ with
  | nil => rfl
  | cons src order ih =>
    rw [List.foldl_cons]
    show List.foldl _ (g.sortEdges src) order = g
    rw [Csr.sortEdges_eq]
    exact ih

theorem Csr.Ok.size_eq {g : Csr} {bs : List Batch} (hg : g.Ok bs) :
    (csr computePrefixSum).size g = vertexCount bs := by
  show g.vertices.length - 1 = _
  rw [hg.vertices_length, Nat.add_sub_cancel, hg.count]

/-- Where lookups on compressed rows find exactly the edges, triangles are counted as on adjacency
lists. -/
theorem Csr.Ok.compute_eq {g : Csr} (hg : g.Ok (batches cs))
    (hsame : List.Forall₂ List.Perm (batches cs) (batches ds))
    (hlookup : ∀ v < vertexCount (batches cs), ∀ d,
      g.findEdgeSorted v d = true ↔ d ∈ destinations (batches cs) v) (s t : Schedule) :
    compute (csr computePrefixSum) s g = compute adjGraph t (adjGraph.calls .new ds) := by
  have ha := adjGraph_calls_ok ds
  have hok := ha.sortAll t
  have hcount := vertexCount_perm hsame
  have hvisit {v : ℕ} (hv : v < (csr computePrefixSum).size g) :
      (csr computePrefixSum).forEachEdge g v = destinations (batches cs) v :=
    hg.forEachEdge (hg.size_eq ▸ hv)
  rw [compute, compute, csr_sortAll]
  congr 1
  apply triangles_congr
  case hsize => exact (hg.size_eq.trans hcount).trans hok.count.symm
  case hedges =>
    intro v hv
    rw [hvisit hv]
    exact (destinations_perm hsame v).trans (hok.out v).symm
  case hbound =>
    intro v hv d hd
    rw [hvisit hv] at hd
    rw [hg.size_eq]
    exact (lt_vertexCount hd).2
  case hfind =>
    intro v hv d
    have hv' : v < vertexCount (batches cs) := hg.size_eq ▸ hv
    rw [Bool.eq_iff_iff]
    show g.findEdgeSorted v d = true ↔ _
    rw [hlookup v hv' d, (destinations_perm hsame v).mem_iff]
    exact (ha.findEdgeSorted t (hcount ▸ hv') d).symm

/-- Lookups on compressed rows find exactly the edges, and triangle counting gives what it gives on
adjacency lists, exactly when every destination is met by a search of the edges as ingested. -/
theorem csr_search_iff (hsum : PrefixSums computePrefixSum)
    (hsame : List.Forall₂ List.Perm (batches cs) (batches ds)) :
    let C := csr computePrefixSum
    let g := C.calls .new cs
    ((∀ v < C.size g, ∀ d < C.size g, C.findEdgeSorted (C.sortEdges g v) v d = true ↔
        d ∈ C.forEachEdge (C.sortEdges g v) v) ∧
      ∀ s t, compute C s g = compute adjGraph t (adjGraph.calls .new ds)) ↔
    ∀ v, ∀ d ∈ destinations (batches cs) v, MetBySearch (batches cs) v d := by
  intro C g
  have hg : g.Ok (batches cs) := csr_calls_ok hsum cs
  have hsize : C.size g = vertexCount (batches cs) := hg.size_eq
  have hfind {v d : ℕ} (hv : v < vertexCount (batches cs)) : g.findEdgeSorted v d = true ↔
      MetBySearch (batches cs) v d := by
    rw [hg.findEdgeSorted hv]
    exact binarySearch_iff (Nat.zero_le _)
  have hvisit {v : ℕ} (hv : v < vertexCount (batches cs)) :
      C.forEachEdge g v = destinations (batches cs) v := hg.forEachEdge hv
  have hsort (v : ℕ) : C.sortEdges g v = g := g.sortEdges_eq v
  simp only [hsort, hsize]
  constructor
  · rintro ⟨hlookup, _⟩ v d hd
    obtain ⟨hv, hdlt⟩ := lt_vertexCount hd
    apply (hfind hv).mp
    apply (hlookup v hv d hdlt).mpr
    rwa [hvisit hv]
  · intro hmet
    have hlookup (v : ℕ) (hv : v < vertexCount (batches cs)) (d : ℕ) :
        g.findEdgeSorted v d = true ↔ d ∈ destinations (batches cs) v := by
      rw [hfind hv]
      constructor
      · intro h
        obtain ⟨i, _, hi, rfl⟩ := h.exists_eq
        simp [hi]
      · exact hmet v d
    refine ⟨fun v hv d _ => ?_, hg.compute_eq hsame hlookup⟩
    rw [hvisit hv]
    exact hlookup v hv d

/-- Edges that were ingested in order are all met. -/
theorem metBySearch_of_sorted {bs : List Batch} {v d : ℕ}
    (h : (destinations bs v).Pairwise (· ≤ ·)) (hd : d ∈ destinations bs v) :
    MetBySearch bs v d :=
  (binarySearch_iff (Nat.zero_le _)).mp ((searchList_of_sorted h).mpr hd)

/-- One triangle, its edges in order. -/
def orderedTriangle : List Call := [.batch [(0, [1, 2]), (1, [2])] .sequential]

theorem csr_search_iff_ordered :
    compute (csr prefixSums) .sequential ((csr prefixSums).calls .new orderedTriangle) =
      compute adjGraph .sequential (adjGraph.calls .new orderedTriangle) := by
  refine ((csr_search_iff (fun _ => rfl) (List.forall₂_same.mpr fun _ _ => .rfl)).mpr ?_).2 _ _
  intro v d hd
  refine metBySearch_of_sorted ?_ hd
  by_cases h0 : v = 0
  · subst h0
    decide
  · by_cases h1 : v = 1
    · subst h1
      decide
    · have hnil : destinations (batches orderedTriangle) v = [] := by
        simp [orderedTriangle, batches, Call.edges, destinations, received, Ne.symm h0, Ne.symm h1]
      rw [hnil]
      exact List.Pairwise.nil

/-- The edges 2 and 1 of vertex 0 are out of order: the edge to 2 is visited but not found, and the
triangle over it is not counted. -/
theorem csr_search_unsorted :
    let C := csr prefixSums
    let g := C.calls .new twoBatches
    C.size g = 3 ∧ 2 ∈ C.forEachEdge (C.sortEdges g 0) 0 ∧
      C.findEdgeSorted (C.sortEdges g 0) 0 2 = false ∧ compute C .sequential g = 0 ∧
      compute adjGraph .sequential (adjGraph.calls .new twoBatches) = 1 := by
  intro C g
  have hg : g.Ok (batches twoBatches) := csr_calls_ok (fun _ => rfl) twoBatches
  have hcount : vertexCount (batches twoBatches) = 3 := rfl
  have hsize : C.size g = 3 := hg.size_eq.trans hcount
  have hvisit (v : ℕ) (hv : v < 3) : C.forEachEdge g v = destinations (batches twoBatches) v :=
    hg.forEachEdge hv
  have hfind : C.findEdgeSorted g 0 2 = false := by
    show g.findEdgeSorted 0 2 = false
    rw [hg.findEdgeSorted (by rw [hcount]; exact Nat.succ_pos 2),
      show destinations (batches twoBatches) 0 = [2, 1] from rfl]
    simp [searchList, binarySearch, lowerBound]
  have hsort : C.sortEdges g 0 = g := g.sortEdges_eq 0
  rw [hsort, hvisit 0 (by omega)]
  refine ⟨hsize, List.mem_cons_self, hfind, ?_, ?_⟩
  · have h0 : C.forEachEdge g 0 = [2, 1] := hvisit 0 (by omega)
    have h1 : C.forEachEdge g 1 = [2] := hvisit 1 (by omega)
    have h2 : C.forEachEdge g 2 = [] := hvisit 2 (by omega)
    have hnone : triangles C g = 0 := by
      rw [triangles, hsize, show List.range 3 = [0, 1, 2] from rfl]
      simp [h0, h1, h2, hfind]
    rw [compute, csr_sortAll, hnone]
    rfl
  · obtain ⟨a, ha⟩ : ∃ a, a = sortAll adjGraph .sequential (adjGraph.calls .new twoBatches) :=
      ⟨_, rfl⟩
    have hok : a.Ok (batches twoBatches) := ha ▸ (adjGraph_calls_ok twoBatches).sortAll _
    have h0 : (adjGraph.forEachEdge a 0).Perm [2, 1] := hok.out 0
    have h1 : adjGraph.forEachEdge a 1 = [2] := List.perm_singleton.mp (hok.out 1)
    have h2 : adjGraph.forEachEdge a 2 = [] := List.perm_nil.mp (hok.out 2)
    have hfound : adjGraph.findEdgeSorted a 0 2 = true := by
      rw [ha]
      exact ((adjGraph_calls_ok twoBatches).findEdgeSorted .sequential
        (by rw [hcount]; exact Nat.succ_pos 2) 2).mpr List.mem_cons_self
    have hone : triangles adjGraph a = 1 := by
      rw [triangles, show adjGraph.size a = 3 from hok.count, show List.range 3 = [0, 1, 2] from rfl,
        List.map_cons, (h0.map _).sum_eq]
      simp [h1, h2, hfound]
    rw [compute, ← ha, hone]
    rfl

end Result

end Scea
