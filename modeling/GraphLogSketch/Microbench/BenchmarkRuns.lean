import GraphLogSketch.Microbench.EditScalability
import GraphLogSketch.Microbench.EditScalabilityLarge
import GraphLogSketch.Scea.SortedGraphs

/-! Runs of a benchmark on a graph: batches are ingested, and the algorithm is run in between. Each run of
the algorithm sees the graph of the edges ingested so far, of whatever type the graph is. -/
namespace Microbench.BenchmarkRuns
open Grouping Scea Workload
open Scripts.DivideIntoBatches (Edge Fits readEdges edgesText)
open EditScalability (Event executions batchEvents)
open EditScalabilityLarge (toBatch targets vertices largestId foldl_max_le mem_ids_toBatch)

/-- What is found by a run of the algorithm, and the vertices whose edges it has sorted. The runs are told
apart by when they start. -/
abbrev Algo (S : SomeGraph) (ρ : Type) := ℕ → S.State → ρ × List ℕ

section Run
variable (S : SomeGraph) {ρ : Type} (schedule : ℕ → Schedule) (algo : Algo S ρ)

/-- What the runs of the algorithm find. -/
def runEvents : ℕ → S.State → List Event → List ρ
  | _, _, [] => []
  | time, g, .ingest insertions :: events =>
    runEvents (time + 1) (S.ops.ingest g (toBatch insertions)) events
  | time, g, .postIngest :: events =>
    runEvents (time + 1) (S.ops.postIngest (schedule time) g) events
  | time, g, .algo :: events =>
    let r := algo time g
    r.1 :: runEvents (time + 1) (r.2.foldl S.ops.sortEdges g) events

end Run

/-- Breadth-first search sorts nothing. -/
def bfs (S : SomeGraph) (picks : ℕ → ℕ → List ℕ) (src : ℕ) : Algo S (Option (ℕ → ℕ)) :=
  fun time g => (SsspBfs.compute S.ops g (picks time) src, [])

section Edges
variable {es es' : List Edge} {m : List (UInt64 × List UInt64)}

theorem mem_targets {v d : ℕ} (hd : d ∈ targets es v) : v ∈ vertices es ∧ d ∈ vertices es := by
  obtain ⟨e, he, rfl⟩ := List.mem_map.mp hd
  obtain ⟨hmem, hsrc⟩ := List.mem_filter.mp he
  have hsrc : e.1.toNat = v := of_decide_eq_true hsrc
  have hids (x : ℕ) (hx : x ∈ [e.1.toNat, e.2.toNat]) : x ∈ vertices es :=
    List.mem_flatMap.mpr ⟨e, hmem, hx⟩
  exact ⟨hids v (by simp [hsrc]), hids _ (by simp)⟩

/-- The vertices of a graph with these edges: none at first, then all up to the largest id. -/
def vertexBound (es : List Edge) : ℕ := if es = [] then 0 else 1 + largestId es

theorem lt_vertexBound {v : ℕ} (hv : v ∈ vertices es) : v < vertexBound es := by
  have hne : es ≠ [] := by
    rintro rfl
    exact absurd hv List.not_mem_nil
  rw [vertexBound, if_neg hne, Nat.one_add]
  exact Nat.lt_succ_of_le (le_foldl_max.2 v hv)

theorem eq_nil_of_vertexBound (h : vertexBound es = 0) : es = [] := by
  unfold vertexBound at h
  split_ifs at h with hes
  · exact hes
  · omega

/-- The graph of an edge list. -/
def edgeLists (es : List Edge) : EdgeLists where
  size := vertexBound es
  out := targets es
  within _ _ hd := (mem_targets hd).imp lt_vertexBound lt_vertexBound

theorem vertexBound_perm (h : es.Perm es') : vertexBound es = vertexBound es' := by
  have hlargest : largestId es = largestId es' := (h.flatMap_right _).foldl_eq 0
  have hnil : es = [] ↔ es' = [] := ⟨fun h' => (h' ▸ h).nil_eq.symm, fun h' => (h' ▸ h).eq_nil⟩
  unfold vertexBound
  rw [hlargest]
  simp only [hnil]

theorem edgeLists_same (h : es.Perm es') : (edgeLists es).Same (edgeLists es') :=
  ⟨vertexBound_perm h, fun v _ => EditScalabilityLarge.targets_perm h v⟩

/-- A batch has no larger ids than its edges. -/
theorem maxVertexId_toBatch (hkeys : ∀ p ∈ m, p.2 ≠ []) :
    maxVertexId (toBatch m) = largestId (pairs m) := by
  rw [maxVertexId_eq]
  apply le_antisymm
  · exact foldl_max_le (Nat.zero_le _) fun d hd =>
      le_foldl_max.2 d ((mem_ids_toBatch hkeys).mp hd)
  · exact foldl_max_le (Nat.zero_le _) fun d hd =>
      le_foldl_max.2 d ((mem_ids_toBatch hkeys).mpr hd)

/-- The vertices after a batch; an empty one is only ingested when there are vertices. -/
theorem vertexBound_append (hne : es = [] → m ≠ []) (hkeys : ∀ p ∈ m, p.2 ≠ []) :
    vertexBound (es ++ pairs m) = max (vertexBound es) (maxVertexId (toBatch m) + 1) := by
  have happend : es ++ pairs m ≠ [] := by
    intro hnil
    obtain ⟨hes, hpairs⟩ := List.append_eq_nil_iff.mp hnil
    obtain ⟨p, hp⟩ := List.exists_mem_of_ne_nil m (hne hes)
    obtain ⟨d, hd⟩ := List.exists_mem_of_ne_nil _ (hkeys p hp)
    have hmem : (p.1, d) ∈ pairs m := List.mem_flatMap.mpr ⟨p, hp, List.mem_map_of_mem hd⟩
    rw [hpairs] at hmem
    exact absurd hmem List.not_mem_nil
  have hlargest : largestId (es ++ pairs m) = max (largestId es) (largestId (pairs m)) := by
    have hfold : largestId (es ++ pairs m) = (vertices (pairs m)).foldl max (largestId es) := by
      unfold largestId vertices
      rw [List.flatMap_append, List.foldl_append]
    rw [hfold]
    apply le_antisymm
    · exact foldl_max_le (le_max_left _ _) fun d hd =>
        (le_foldl_max.2 d hd).trans (le_max_right _ _)
    · exact max_le le_foldl_max.1 (foldl_max_le (Nat.zero_le _) le_foldl_max.2)
  rw [vertexBound, if_neg happend, hlargest, maxVertexId_toBatch hkeys, vertexBound]
  split_ifs with hes
  · subst hes
    show 1 + max 0 (largestId (pairs m)) = max 0 (largestId (pairs m) + 1)
    omega
  · omega

end Edges

/-- Events as a benchmark brings them: what is ingested is worked into the graph at once, and nothing
empty is ingested into an empty graph. -/
inductive Turns : List Edge → List Event → Prop where
  | nil (seen : List Edge) : Turns seen []
  | ingest {seen : List Edge} {m : List (UInt64 × List UInt64)} {events : List Event}
      (hne : seen = [] → m ≠ []) (hkeys : ∀ p ∈ m, p.2 ≠ []) :
      Turns (seen ++ pairs m) events → Turns seen (.ingest m :: .postIngest :: events)
  | algo {seen : List Edge} {events : List Event} :
      Turns seen events → Turns seen (.algo :: events)

/-- The calls have brought these edges into the graph, and the first that did was not empty. -/
structure Ingested (cs : List Call) (seen : List Edge) : Prop where
  first : (batches cs).head? ≠ some []
  size : vertexCount (batches cs) = vertexBound seen
  out : ∀ v, (destinations (batches cs) v).Perm (targets seen v)

section Turns
variable {cs : List Call} {seen : List Edge} {m : List (UInt64 × List UInt64)}

theorem ingested_nil : Ingested [] [] := ⟨(Option.some_ne_none _).symm, rfl, fun _ => .nil⟩

theorem Ingested.same (h : Ingested cs seen) :
    (EdgeLists.ofBatches (batches cs)).Same (edgeLists seen) := ⟨h.size, fun v _ => h.out v⟩

theorem Ingested.batch (h : Ingested cs seen) (hne : seen = [] → m ≠ [])
    (hkeys : ∀ p ∈ m, p.2 ≠ []) (schedule : Schedule) :
    Ingested (cs ++ [.batch (toBatch m) schedule]) (seen ++ pairs m) := by
  have hbatches : batches (cs ++ [.batch (toBatch m) schedule]) = batches cs ++ [toBatch m] :=
    batches_concat _ _
  constructor
  case first =>
    rw [hbatches]
    rcases hcs : batches cs with - | ⟨b, bs⟩
    · -- The graph has no vertices yet, so that nothing empty is ingested.
      have hseen : seen = [] := eq_nil_of_vertexBound (h.size ▸ hcs ▸ rfl)
      have hm : toBatch m ≠ [] := fun hnil => hne hseen (List.map_eq_nil_iff.mp hnil)
      exact fun hfirst => hm (Option.some.inj hfirst)
    · have hfirst := h.first
      rwa [hcs] at hfirst
  case size =>
    rw [hbatches, vertexBound_append hne hkeys, ← h.size, vertexCount, List.foldl_append]
    rfl
  case out =>
    intro v
    have hdests : destinations (batches cs ++ [toBatch m]) v =
        destinations (batches cs) v ++ received (toBatch m) v := by
      rw [destinations, destinations, List.flatMap_append, List.flatMap_singleton]
    rw [hbatches, hdests, EditScalabilityLarge.targets_append,
      EditScalabilityLarge.received_toBatch]
    exact (h.out v).append_right _

theorem Ingested.sorts (h : Ingested cs seen) (srcs : List ℕ) :
    Ingested (cs ++ srcs.map .sortEdges) seen := by
  have hbatches : batches (cs ++ srcs.map .sortEdges) = batches cs := by
    simp [batches, Call.edges]
  exact ⟨hbatches ▸ h.first, hbatches ▸ h.size, fun v => hbatches ▸ h.out v⟩

/-- Each run of the algorithm sees a graph of the edges ingested so far. -/
theorem runEvents_eq {S : SomeGraph} {ρ : Type} (schedule : ℕ → Schedule) (algo : Algo S ρ)
    (find : List Edge → ρ) {events : List Event} (h : Turns seen events) (hcs : Ingested cs seen)
    (hfind : ∀ edges ∈ executions seen events, ∀ time cs, Ingested cs edges →
      (algo time (S.calls cs)).1 = find edges) (time : ℕ) :
    runEvents S schedule algo time (S.calls cs) events = (executions seen events).map find := by
  induction h generalizing cs time with
  | nil seen => rfl
  | @ingest seen m events hne hkeys _ ih =>
    have hnext := hcs.batch hne hkeys (schedule (time + 1))
    have hcalls : S.calls (cs ++ [.batch (toBatch m) (schedule (time + 1))]) =
        S.ops.postIngest (schedule (time + 1)) (S.ops.ingest (S.calls cs) (toBatch m)) :=
      MutableGraph.calls_concat _ _ _ _
    rw [runEvents, runEvents, ← hcalls]
    exact ih hnext hfind _
  | @algo seen events _ ih =>
    have hnext := hcs.sorts (algo time (S.calls cs)).2
    have hcalls : S.calls (cs ++ (algo time (S.calls cs)).2.map .sortEdges) =
        (algo time (S.calls cs)).2.foldl S.ops.sortEdges (S.calls cs) := by
      unfold SomeGraph.calls MutableGraph.calls
      rw [List.foldl_append, List.foldl_map]
      rfl
    have hrest := ih hnext (fun edges hedges => hfind edges (List.mem_cons_of_mem seen hedges))
      (time + 1)
    rw [hcalls] at hrest
    rw [runEvents, hrest, hfind seen List.mem_cons_self time cs hcs]
    rfl

end Turns

/-- What an algorithm finds in graphs with some of the edges, however they came into the graph. -/
structure Finds (S : SomeGraph) {ρ : Type} (algo : Algo S ρ) (find : List Edge → ρ)
    (es : List Edge) : Prop where
  congr : ∀ l l', l.Perm l' → find l = find l'
  found : ∀ l cs, l.Subperm es → Ingested cs l → ∀ time, (algo time (S.calls cs)).1 = find l

section Finds
variable {S : SomeGraph} {ρ : Type} {algo : Algo S ρ} {find : List Edge → ρ} {es es' : List Edge}

theorem Finds.perm (h : Finds S algo find es) (hperm : es'.Perm es) : Finds S algo find es' :=
  ⟨h.congr, fun l cs hl => h.found l cs (hl.trans hperm.subperm)⟩

theorem Finds.runs (h : Finds S algo find es) (schedule : ℕ → Schedule) {events : List Event}
    (hturns : Turns [] events) (hes : ∀ l ∈ executions [] events, l.Subperm es) :
    runEvents S schedule algo 0 S.new events = (executions [] events).map find :=
  runEvents_eq schedule algo find hturns ingested_nil
    (fun l hl time cs hcs => h.found l cs (hes l hl) hcs time) 0

end Finds

section Algorithms
variable {lib : Galois} {t : GraphType} {cs : List Call} {seen : List Edge}

theorem Ingested.holds (h : Ingested cs seen) (hlib : lib.Lawful) (t : GraphType) :
    Holds (graphOf lib t).ops ((graphOf lib t).calls cs) (t.kept (edgeLists seen)) :=
  (graphOf_holds hlib t cs).same (t.kept_same h.same)

/-- A run of breadth-first search on a graph of any type. -/
theorem bfs_ingested (hlib : lib.Lawful) (h : Ingested cs seen)
    (hsize : 8 * vertexBound seen ≤ 2 ^ 64) (picks : ℕ → ℕ → List ℕ) (src time : ℕ) :
    (bfs (graphOf lib t) picks src time ((graphOf lib t).calls cs)).1 =
      some ((edgeLists seen).distances src) := by
  have hrun := (h.holds hlib t).bfs (by rwa [GraphType.kept_size]) (picks time) src
  rwa [GraphType.kept_distances] at hrun

theorem vertexBound_le {es : List Edge} {n : ℕ} (h : ∀ v ∈ vertices es, v < n) :
    vertexBound es ≤ n := by
  unfold vertexBound
  split_ifs with hes
  · exact Nat.zero_le n
  · obtain ⟨e, he⟩ := List.exists_mem_of_ne_nil es hes
    have hpos := h e.1.toNat (List.mem_flatMap.mpr ⟨e, he, by simp⟩)
    have hle : largestId es ≤ n - 1 :=
      foldl_max_le (Nat.zero_le _) fun v hv => Nat.le_pred_of_lt (h v hv)
    omega

theorem vertexBound_mono {es es' : List Edge} (h : es ⊆ es') : vertexBound es ≤ vertexBound es' :=
  vertexBound_le fun v hv => by
    obtain ⟨e, he, hv⟩ := List.mem_flatMap.mp hv
    exact lt_vertexBound (List.mem_flatMap.mpr ⟨e, h he, hv⟩)

/-- Breadth-first search finds the distances. -/
theorem bfs_finds (hlib : lib.Lawful) (t : GraphType) {es : List Edge}
    (hsize : 8 * vertexBound es ≤ 2 ^ 64) (picks : ℕ → ℕ → List ℕ) (src : ℕ) :
    Finds (graphOf lib t) (bfs (graphOf lib t) picks src)
      (fun l => some ((edgeLists l).distances src)) es where
  congr _ _ h := congrArg some ((edgeLists_same h).distances src)
  found _ _ hl hcs time := by
    have hmono := vertexBound_mono hl.subset
    exact bfs_ingested hlib hcs ((Nat.mul_le_mul_left 8 hmono).trans hsize) picks src time

end Algorithms

section EditScalability
variable {hashOrder : List (UInt64 × List UInt64) → List (UInt64 × List UInt64)}

theorem turns_batchEvents (hhash : ∀ l, (hashOrder l).Perm l) (bs : List (List Edge))
    (seen : List Edge) : Turns seen (bs.flatMap (batchEvents hashOrder)) := by
  induction bs generalizing seen with
  | nil => exact .nil seen
  | cons b bs ih =>
    rw [List.flatMap_cons, batchEvents]
    split_ifs with hne
    · refine .ingest (fun _ => hne) (fun p hp => ?_) (.algo (ih _))
      exact grouped_ne_nil ((hhash _).mem_iff.mp hp)
    · exact .algo (ih seen)

/-- What depends on the edges only depends on those of the batches so far. -/
theorem map_executions (hhash : ∀ l, (hashOrder l).Perm l) {ρ : Type} {find : List Edge → ρ}
    (hfind : ∀ es es', es.Perm es' → find es = find es') (bs : List (List Edge)) :
    (executions [] (bs.flatMap (batchEvents hashOrder))).map find =
      (List.range bs.length).map fun i => find (bs.take (i + 1)).flatten := by
  obtain ⟨hlen, hperm⟩ := EditScalability.executions_spec hhash bs []
  apply List.ext_getElem
  · simp [hlen]
  · intro i hi _
    rw [List.length_map, hlen] at hi
    have hget := hperm i hi
    rw [List.getD_eq_getElem _ _ (hlen.symm ▸ hi)] at hget
    simpa using hfind _ _ hget

theorem mem_executions (hhash : ∀ l, (hashOrder l).Perm l) {bs : List (List Edge)} {es : List Edge}
    (hes : es ∈ executions [] (bs.flatMap (batchEvents hashOrder))) :
    ∃ i < bs.length, es.Perm (bs.take (i + 1)).flatten := by
  obtain ⟨hlen, hperm⟩ := EditScalability.executions_spec hhash bs []
  obtain ⟨i, hi, rfl⟩ := List.getElem_of_mem hes
  rw [hlen] at hi
  have hget := hperm i hi
  rw [List.getD_eq_getElem _ _ (hlen.symm ▸ hi)] at hget
  exact ⟨i, hi, hget⟩

theorem take_flatten_subperm (bs : List (List Edge)) (k : ℕ) :
    (bs.take k).flatten.Subperm bs.flatten :=
  (List.Sublist.flatten (List.take_sublist k bs)).subperm

variable {S : SomeGraph} {ρ : Type} {algo : Algo S ρ} {find : List Edge → ρ}

/-- The runs on batches that are ingested one after the other. -/
theorem Finds.batches {bs : List (List Edge)} (h : Finds S algo find bs.flatten)
    (hhash : ∀ l, (hashOrder l).Perm l) (schedule : ℕ → Schedule) :
    runEvents S schedule algo 0 S.new (bs.flatMap (batchEvents hashOrder)) =
      (List.range bs.length).map fun i => find (bs.take (i + 1)).flatten := by
  have hruns := h.runs schedule (turns_batchEvents hhash bs []) fun l hl => by
    obtain ⟨i, -, hperm⟩ := mem_executions hhash hl
    exact hperm.subperm_right.mpr (take_flatten_subperm bs (i + 1))
  exact hruns.trans (map_executions hhash h.congr bs)

/-- The last run on a file that an edge list is divided into. -/
theorem Finds.divided (hhash : ∀ l, (hashOrder l).Perm l)
    {randomShuffle : Option (List Edge → List Edge)}
    (hshuffle : ∀ f ∈ randomShuffle, ∀ l, (f l).Perm l) {input : List Char} {numBatches : UInt64}
    (hne : readEdges input ≠ []) (hb : 1 ≤ numBatches)
    (hfits : Fits (readEdges input).length numBatches.toNat) {numVertices : Option UInt64}
    (hrange : EditScalability.InRange numVertices (readEdges input))
    (h : Finds S algo find (readEdges input)) (schedule : ℕ → Schedule) :
    ∃ file events, Scripts.DivideIntoBatches.main randomShuffle input numBatches = some file ∧
      EditScalability.main hashOrder numVertices file = some events ∧
      (runEvents S schedule algo 0 S.new events).getLast? = some (find (readEdges input)) := by
  have hb := UInt64.le_iff_toNat_le.mp hb
  have hlen : (readEdges input).length < 2 ^ 64 := (Nat.le_add_right _ _).trans_lt hfits.1
  have hfile := Scripts.DivideIntoBatches.main_eq hshuffle hne hlen hb hfits
  set w := Scripts.DivideIntoBatches.workload
    (Scripts.DivideIntoBatches.shuffled randomShuffle input) numBatches.toNat
  have hperm : (edges w).Perm (readEdges input) :=
    (Scripts.DivideIntoBatches.edges_workload _ hb).trans
      (Scripts.DivideIntoBatches.shuffled_perm hshuffle input)
  have hread : (EditScalability.lineBatches numVertices w).flatten = edges w :=
    EditScalability.flatten_lineBatches fun e he => hrange e (hperm.mem_iff.mp he)
  set bs := EditScalability.lineBatches numVertices w
  obtain ⟨n, hn⟩ := Nat.exists_eq_succ_of_ne_zero
    (Nat.zero_lt_of_lt (EditScalability.execute_lt_lineBatches numVertices w)).ne'
  have hall : bs.flatten.Perm (readEdges input) := hread ▸ hperm
  refine ⟨_, _, hfile, EditScalability.main_text numVertices _, ?_⟩
  rw [(h.perm hall).batches hhash schedule, hn, List.range_succ, List.map_append, List.map_singleton,
    List.getLast?_concat, List.take_of_length_le hn.le, h.congr _ _ hall]

end EditScalability

/-- Breadth-first search in the benchmark, on a graph of any type and with whatever interleavings: the run
after a batch finds the distances in the graph of the edges of all batches read so far. -/
theorem bfs_after_each_batch (lib : Galois) (hlib : lib.Lawful) (t : GraphType)
    (hashOrder : List (UInt64 × List UInt64) → List (UInt64 × List UInt64))
    (hhash : ∀ l, (hashOrder l).Perm l) (numVertices : Option UInt64) (w : List Line)
    (hsize : 8 * vertexBound (EditScalability.lineBatches numVertices w).flatten ≤ 2 ^ 64)
    (schedule : ℕ → Schedule) (picks : ℕ → ℕ → List ℕ) (src : ℕ) :
    let S := graphOf lib t
    let bs := EditScalability.lineBatches numVertices w
    ∃ events, EditScalability.main hashOrder numVertices (text w) = some events ∧
      runEvents S schedule (bfs S picks src) 0 S.new events =
        (List.range bs.length).map fun i =>
          some ((edgeLists (bs.take (i + 1)).flatten).distances src) := by
  intro S bs
  exact ⟨_, EditScalability.main_text numVertices w,
    (bfs_finds hlib t hsize picks src).batches hhash schedule⟩

/-- Two batches, with an edge to a vertex that is out of range and an edge that comes twice. -/
def twoBatchLines : List Line := [.insert 0 [1, 7, 1], .execute, .insert 1 [2], .insert 0 [2]]

theorem bfs_after_each_batch_two :
    ∃ events, EditScalability.main List.reverse (some 3) (text twoBatchLines) = some events ∧
      (runEvents (graphOf referenceGalois .morph) (fun _ => .sequential)
        (bfs (graphOf referenceGalois .morph) (fun _ _ => [1, 0]) 0) 0
        (graphOf referenceGalois .morph).new events).length = 2 := by
  obtain ⟨events, hmain, hrun⟩ := bfs_after_each_batch referenceGalois referenceGalois_lawful .morph
    List.reverse List.reverse_perm (some 3) twoBatchLines (by decide) (fun _ => .sequential)
    (fun _ _ => [1, 0]) 0
  exact ⟨events, hmain, by rw [hrun]; rfl⟩

/-- From an edge list through the division into batches to the benchmark: the last run of breadth-first
search finds the distances in the graph of the edge list, whatever the shuffle, the number of batches, if
the batches fit, the type of the graph and the interleavings. -/
theorem bfs_divided (lib : Galois) (hlib : lib.Lawful) (t : GraphType)
    (hashOrder : List (UInt64 × List UInt64) → List (UInt64 × List UInt64))
    (hhash : ∀ l, (hashOrder l).Perm l) (randomShuffle : Option (List Edge → List Edge))
    (hshuffle : ∀ f ∈ randomShuffle, ∀ l, (f l).Perm l) (input : List Char) (numBatches : UInt64)
    (hne : readEdges input ≠ []) (hb : 1 ≤ numBatches)
    (hfits : Fits (readEdges input).length numBatches.toNat) (numVertices : Option UInt64)
    (hrange : EditScalability.InRange numVertices (readEdges input))
    (hsize : 8 * vertexBound (readEdges input) ≤ 2 ^ 64)
    (schedule : ℕ → Schedule) (picks : ℕ → ℕ → List ℕ) (src : ℕ) :
    let S := graphOf lib t
    ∃ file events, Scripts.DivideIntoBatches.main randomShuffle input numBatches = some file ∧
      EditScalability.main hashOrder numVertices file = some events ∧
      (runEvents S schedule (bfs S picks src) 0 S.new events).getLast? =
        some (some ((edgeLists (readEdges input)).distances src)) := by
  intro S
  exact (bfs_finds hlib t hsize picks src).divided hhash hshuffle hne hb hfits hrange schedule

theorem bfs_divided_two : ∃ file events,
    Scripts.DivideIntoBatches.main none (edgesText [(2, 0), (0, 1)]) 2 = some file ∧
      EditScalability.main List.reverse none file = some events ∧
      (runEvents (graphOf referenceGalois .csr) (fun _ => .sequential)
        (bfs (graphOf referenceGalois .csr) (fun _ _ => []) 2) 0
        (graphOf referenceGalois .csr).new events).getLast? =
          some (some ((edgeLists [(2, 0), (0, 1)]).distances 2)) := by
  have hread := Scripts.DivideIntoBatches.readEdges_edgesText [(2, 0), (0, 1)]
  have hdivided := bfs_divided referenceGalois referenceGalois_lawful .csr List.reverse
    List.reverse_perm none (by simp) (edgesText [(2, 0), (0, 1)]) 2 (by rw [hread]; decide)
    (by decide) (by rw [hread]; decide) none
    (by rw [hread]; exact fun _ _ => ⟨rfl, rfl⟩) (by rw [hread]; decide) (fun _ => .sequential)
    (fun _ _ => []) 2
  rwa [hread] at hdivided

end Microbench.BenchmarkRuns
