import GraphLogSketch.Wf4.NodeValues

/-! Edge probabilities: the whole of `CalculateEdgeProbabilities`, with the mirror update between
its two passes and the two totals it reports. -/
namespace Wf4
variable {H : ℕ}

/-- The edge with its new weight, and what the edge adds to the total of all weights. -/
def edgeProbability (d : HostData) (node : GlobalNodeID) (e : OutEdge) : OutEdge × ℚ :=
  let amountSold := (d node).sold
  let weigh (x : ℚ) : OutEdge × ℚ := ({ e with data := { e.data with weight := x } }, x)
  if e.data.type = .sale ∧ 0 < amountSold then weigh (e.data.amount / amountSold)
  else if e.data.type = .purchase then
    let dstSold := (d e.edgeDst).sold
    if 0 < dstSold then weigh (e.data.amount / dstSold) else (e, 0)
  else (e, 0)

/-- `CalculateEdgeProbability` on one node: its reweighted edges and its shares of the totals. -/
structure Probabilities where
  edges : List OutEdge
  totalEdgeWeights : ℚ
  totalSales : ℚ

def calculateEdgeProbability (d : HostData) (node : GlobalNodeID) (es : List OutEdge) :
    Probabilities :=
  { edges := es.map fun e => (edgeProbability d node e).1
    totalEdgeWeights := (es.map fun e => (edgeProbability d node e).2).sum
    totalSales := (es.map fun e => e.data.amount).sum }

/-- Reweighting moves no edge. -/
def NetworkGraph.reweigh (g : NetworkGraph H) (f : GlobalNodeID → OutEdge → OutEdge)
    (hf : ∀ v e, (f v e).edgeDst = e.edgeDst) : NetworkGraph H :=
  { g with
    edges := fun v => (g.edges v).map (f v)
    edge_local := by
      intro h v e hv he
      obtain ⟨e', he', rfl⟩ := List.mem_map.mp he
      rw [hf]
      exact g.edge_local hv he' }

theorem edgeProbability_edgeDst (d : HostData) (node : GlobalNodeID) (e : OutEdge) :
    (edgeProbability d node e).1.edgeDst = e.edgeDst := by
  unfold edgeProbability
  dsimp only
  split_ifs <;> rfl

/-- The weight is the only field that changes. -/
theorem edgeProbability_data (d : HostData) (node : GlobalNodeID) (e : OutEdge) :
    (edgeProbability d node e).1.data.type = e.data.type ∧
      (edgeProbability d node e).1.data.amount = e.data.amount := by
  unfold edgeProbability
  dsimp only
  split_ifs <;> exact ⟨rfl, rfl⟩

/-- Every host fills the counters of its masters, then `sold` goes to the mirrors. -/
def fillAndSync (g : NetworkGraph H) (order : Fin H → List GlobalNodeID) (s : Hosts H) : Hosts H :=
  reduceSet g .sold fun h => fillMasters g (order h) ((s h).clearBits .sold)

/-- The result of `CalculateEdgeProbabilities`: the hosts, the reweighted graph and the totals. -/
structure EdgeProbabilities (H : ℕ) where
  hosts : Hosts H
  graph : NetworkGraph H
  totalEdgeWeights : ℚ
  totalSales : ℚ

def calculateEdgeProbabilities (g : NetworkGraph H) (order : Fin H → List GlobalNodeID)
    (s : Hosts H) : EdgeProbabilities H :=
  let s := fillAndSync g order s
  let run (h : Fin H) (v : GlobalNodeID) := calculateEdgeProbability (s h).data v (g.edges v)
  { hosts := s
    graph := g.reweigh (fun v e => (edgeProbability (s (g.getHostID v)).data v e).1)
      fun _ _ => edgeProbability_edgeDst _ _ _
    totalEdgeWeights := ∑ h, ((order h).map fun v => (run h v).totalEdgeWeights).sum
    totalSales := ∑ h, ((order h).map fun v => (run h v).totalSales).sum }

/-- The new edges of a master are those `CalculateEdgeProbability` stores at its host. -/
theorem calculateEdgeProbabilities_edges (g : NetworkGraph H) (order : Fin H → List GlobalNodeID)
    (s : Hosts H) {h : Fin H} {v : GlobalNodeID} (hv : v ∈ g.masters h) :
    (calculateEdgeProbabilities g order s).graph.edges v =
      (calculateEdgeProbability (fillAndSync g order s h).data v (g.edges v)).edges := by
  simp only [calculateEdgeProbabilities, NetworkGraph.reweigh, g.host_of_master hv,
    calculateEdgeProbability]

end Wf4
