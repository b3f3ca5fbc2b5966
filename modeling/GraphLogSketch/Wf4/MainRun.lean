import GraphLogSketch.Wf4.InfluenceReport
import GraphLogSketch.Wf4.Projection
import GraphLogSketch.Wf4.QuiesceResult
import GraphLogSketch.Wf4.ReachableSetsResult

/-! `main`: the full graph is projected, its edges are weighed, influential nodes are chosen by random
sets and cancelled, and the rest of the trade is quiesced. Every phase starts from the hosts as the
last one left them; the two in the middle write no counter of the trade. -/
namespace Wf4
variable {H : ℕ}

/-- The options that are verified or reach the phases. -/
structure ProgramOptions where
  k : UInt64 := 100
  rrr : UInt64 := 100000
  epochs : UInt64 := 100
  inputDirectory : List Char := []
  commercialInputFile : List Char := []
  cyberInputFile : List Char := []
  socialInputFile : List Char := []
  usesInputFile : List Char := []
  nodesInputFile : List Char := []

def ProgramOptions.Verify (o : ProgramOptions) : Bool :=
  if o.k ≤ 0 then false
  else if o.rrr ≤ 0 then false
  else if o.inputDirectory.isEmpty && o.commercialInputFile.isEmpty && o.cyberInputFile.isEmpty &&
      o.socialInputFile.isEmpty && o.usesInputFile.isEmpty && o.nodesInputFile.isEmpty then false
  else true

theorem ProgramOptions.pos_of_verify {o : ProgramOptions} (h : o.Verify = true) :
    0 < o.k.toNat ∧ 0 < o.rrr.toNat := by
  unfold Verify at h
  split_ifs at h with hk hr hinput
  rw [UInt64.le_iff_toNat_le] at hk hr
  exact ⟨Nat.pos_of_ne_zero fun h0 => hk h0.le, Nat.pos_of_ne_zero fun h0 => hr h0.le⟩

/-- Nothing is sold, bought or desired. -/
structure NodeData.Idle (n : NodeData) : Prop where
  sold : n.sold = 0
  bought : n.bought = 0
  desired : n.desired = 0

/-- What the phases are given: the graph that was imported, the hosts of its projection, on which
nothing is counted yet, and the options. -/
structure MainInput (H : ℕ) where
  fullGraph : FullNetworkGraph H
  hosts : Hosts H
  options : ProgramOptions
  paired : fullGraph.Paired
  verified : options.Verify = true
  hosts_pos : 0 < H
  hosts_lt : H < 2 ^ 32
  node_bound : ∃ v, ¬ (projectGraph fullGraph).IsNode v
  idle : ∀ h v, (projectedNetworkGraph fullGraph paired).isLocal h v = true →
    ((hosts h).data v).Idle
  uncounted : ∀ h, ∀ v ∈ (projectGraph fullGraph).masters h, ((hosts h).data v).frequency = 0

namespace MainInput
variable (i : MainInput H) (fillOrder : Fin H → List GlobalNodeID)

/-- The projected graph. -/
def network : NetworkGraph H := projectedNetworkGraph i.fullGraph i.paired

/-- The hosts and the graph after `CalculateEdgeProbabilities`. -/
def weighed : EdgeProbabilities H := calculateEdgeProbabilities i.network fillOrder i.hosts

def generation : Generation H :=
  ⟨(i.weighed fillOrder).graph, i.options.rrr, i.hosts_pos, i.hosts_lt, i.node_bound⟩

end MainInput

/-- `CancelNodes` on all hosts, each with the vector that was returned to it. -/
def cancelReturned (g : NetworkGraph H) (nodes order : Fin H → List GlobalNodeID) (s : Hosts H) :
    Hosts H := fun h =>
  cancelLocals g h (nodes h) (reduceAdd g .sold (reduceAdd g .bought (cancelOnHosts g order s)) h)

/-- A run of `main` on all hosts, from the projected graph on. -/
structure MainRun (i : MainInput H) where
  fillOrder : Fin H → List GlobalNodeID
  fillOrder_perm : ∀ h, (fillOrder h).Perm (i.network.masters h)
  generated : GenerationRun (i.generation fillOrder) i.options.epochs.toNat fun h =>
    ((i.weighed fillOrder).hosts h).data
  lines : List (PickLine H)
  chosen : ∀ h, InfluenceHost H (generated.sets h).length
  choosing : ReportedSelection (i.weighed fillOrder).graph
    (startSelection generated.final.store fun h => (generated.sets h).get) lines chosen
  lines_length : lines.length = i.options.k.toNat
  cancelOrder : Fin H → List GlobalNodeID
  cancelOrder_perm : ∀ h, (cancelOrder h).Perm (influentialNodes (lines.map PickLine.node) h)
  quiesced : QuiesceRun (i.weighed fillOrder).graph
    (cancelReturned (i.weighed fillOrder).graph (influentialNodes (lines.map PickLine.node))
      cancelOrder fun h => { (i.weighed fillOrder).hosts h with data := (chosen h).data })

namespace MainRun
variable {i : MainInput H} (r : MainRun i)

abbrev graph : NetworkGraph H := (i.weighed r.fillOrder).graph

/-- The hosts when `GetInfluentialNodes` is called. -/
def sampled : ∀ h, InfluenceHost H (r.generated.sets h).length :=
  startSelection r.generated.final.store fun h => (r.generated.sets h).get

abbrev picks : List (Fin H → GlobalNodeID) := r.lines.map PickLine.node

/-- The hosts when `CancelNodes` is called. -/
def entered : Hosts H := fun h => { (i.weighed r.fillOrder).hosts h with data := (r.chosen h).data }

/-- The hosts when `QuiesceGraph` is called. -/
def cancelled : Hosts H :=
  cancelReturned r.graph (influentialNodes r.picks) r.cancelOrder r.entered

/-- The hosts when `main` returns. -/
def final : Hosts H := r.quiesced.final

end MainRun

/-- The fields that the trade is counted in. -/
def NodeData.trades (n : NodeData) : ℚ × ℚ × ℚ := (n.sold, n.bought, n.desired)

theorem NodeData.get_eq_of_trades {n n' : NodeData} (h : n.trades = n'.trades) (c : Counter) :
    n.get c = n'.get c := by
  obtain ⟨hs, hb, _⟩ : n.sold = n'.sold ∧ n.bought = n'.bought ∧ n.desired = n'.desired := by
    simpa [trades] using h
  cases c with
  | sold => exact hs
  | bought => exact hb

theorem NodeData.desired_eq_of_trades {n n' : NodeData} (h : n.trades = n'.trades) :
    n.desired = n'.desired :=
  congrArg (fun t => t.2.2) h

section Frame

theorem HostData.modify_trades (d : HostData) (u v : GlobalNodeID) {f : NodeData → NodeData}
    (hf : ∀ n, (f n).trades = n.trades) : (d.modify u f v).trades = (d v).trades := by
  by_cases h : v = u
  · subst h
    rw [HostData.modify_self, hf]
  · rw [HostData.modify_of_ne _ _ h]

theorem HostData.raise_trades (d : HostData) (counted : List GlobalNodeID) (v : GlobalNodeID) :
    (d.raise counted v).trades = (d v).trades := by
  induction counted generalizing d with
  | nil => rfl
  | cons u counted ih =>
    have hone : (d.modify u (fun n => { n with frequency := n.frequency + 1 }) v).trades =
        (d v).trades := d.modify_trades u v fun _ => rfl
    exact (ih _).trans hone

theorem HostData.lower_trades (d : HostData) (updates : UpdateMap) (v : GlobalNodeID) :
    (updates.foldl HostData.lower d v).trades = (d v).trades := by
  induction updates generalizing d with
  | nil => rfl
  | cons u updates ih => exact (ih _).trans (d.modify_trades u.1 v fun _ => rfl)

variable {g : NetworkGraph H} {h : Fin H} {v : GlobalNodeID}

section Generating
variable {finish : Bool} {t t' : Generating H}

theorem GenerateStep.trades (hstep : GenerateStep g finish t t') :
    (t'.store h v).trades = (t.store h v).trades := by
  obtain ⟨dist, _, _, _⟩ := hstep
  rename_i k s rest frontier begin _ _ _
  have hrec : (((t.take k rest).record k (continueSet g k dist finish frontier s)).store h v).trades =
      (t.store h v).trades := by
    by_cases hk : h = k
    · subst hk
      simp only [Generating.record, Function.update_self]
      exact HostData.raise_trades ..
    · simp only [Generating.record, Function.update_of_ne hk]
      rfl
  unfold routeSet
  split_ifs
  · exact hrec
  · exact hrec

theorem GenerateSets.trades (hgen : GenerateSets g finish t t') :
    (t'.store h v).trades = (t.store h v).trades := by
  have hrun := hgen.1
  clear hgen
  induction hrun with
  | refl => rfl
  | tail _ hstep ih => exact hstep.trades.trans ih

theorem ExchangePartialSets.store (hex : ExchangePartialSets t t') : t'.store = t.store := by
  obtain ⟨_⟩ := hex
  rfl

theorem Epochs.trades {n : ℕ} (hep : Epochs g n t t') :
    (t'.store h v).trades = (t.store h v).trades := by
  induction hep with
  | zero => rfl
  | succ _ hgen hex ih =>
    rw [hex.store]
    exact hgen.trades.trans ih

/-- `GetRandomReverseReachableSets` writes no counter of the trade. -/
theorem GenerationRun.trades {p : Generation H} {epochs : ℕ} {store : Store H}
    (r : GenerationRun p epochs store) :
    (r.final.store h v).trades = (store h v).trades := by
  calc (r.final.store h v).trades
      = (r.returned.store h v).trades := r.storing.trades
    _ = (r.cleaned.store h v).trades := by rw [r.returning.store]
    _ = (r.expanded.store h v).trades := r.cleaning.trades
    _ = (store h v).trades := r.expanding.trades

end Generating

section Selecting
variable {n : Fin H → ℕ} {p : Fin H → GlobalNodeID} {s start : ∀ h, InfluenceHost H (n h)}

theorem removeReachableSet_trades {m : ℕ} (u : GlobalNodeID) (order : Fin m → List GlobalNodeID)
    (j : Fin m) (t : Removing H m) :
    ((removeReachableSet g h u order j t).host.data v).trades = (t.host.data v).trades := by
  unfold removeReachableSet
  split
  · split_ifs <;> rfl
  · rename_i w rest _
    have hdrop : ((t.drop g h w).host.data v).trades = (t.host.data v).trades := by
      unfold Removing.drop
      split_ifs
      · exact HostData.lower_trades _ [(w, 1)] v
      · rfl
    exact hdrop
  · rfl
  · rfl

theorem Removal.trades (r : Removal g p s) :
    ((r.after h).data v).trades = ((s h).data v).trades := by
  have hremoved := (r.run h).invariant (P := fun t => (t.host.data v).trades = ((s h).data v).trades)
    rfl fun j _ t ht => (removeReachableSet_trades (p h) (r.order h) j t).trans ht
  exact (HostData.lower_trades ..).trans hremoved

/-- `GetInfluentialNodes` writes no counter of the trade. -/
theorem Selection.trades {picks : List (Fin H → GlobalNodeID)}
    (hsel : Selection g start picks s) : ((s h).data v).trades = ((start h).data v).trades := by
  induction hsel with
  | first => rfl
  | next _ r _ ih => exact r.trades.trans ih

end Selecting

section Frequency

theorem HostData.modify_frequency (d : HostData) (u v : GlobalNodeID) {f : NodeData → NodeData}
    (hf : ∀ n, (f n).frequency = n.frequency) : (d.modify u f v).frequency = (d v).frequency := by
  by_cases h : v = u
  · subst h
    rw [HostData.modify_self, hf]
  · rw [HostData.modify_of_ne _ _ h]

theorem NodeData.set_frequency (n : NodeData) (c : Counter) (x : ℚ) :
    (n.set c x).frequency = n.frequency := by
  cases c <;> rfl

theorem fillEdge_frequency (node v : GlobalNodeID) (d : HostData) (e : OutEdge) :
    (fillEdge node d e v).frequency = (d v).frequency := by
  have hadd (c : Counter) (x : ℚ) (n : NodeData) : (n.atomicAdd c x).frequency = n.frequency :=
    n.set_frequency c _
  have hid (x : UInt64) (n : NodeData) :
      ({ n with id := x } : NodeData).frequency = n.frequency := rfl
  have hdesired (x : ℚ) (n : NodeData) :
      ({ n with desired := n.desired + x } : NodeData).frequency = n.frequency := rfl
  have hids : ((d.modify node fun n => { n with id := e.data.src }).modify e.edgeDst
      (fun n => { n with id := e.data.dst }) v).frequency = (d v).frequency :=
    (HostData.modify_frequency _ _ v (hid _)).trans (d.modify_frequency _ v (hid _))
  unfold fillEdge
  cases e.data.type with
  | sale => exact (HostData.modify_frequency _ _ v (hadd _ _)).trans hids
  | purchase =>
    exact (HostData.modify_frequency _ _ v (hdesired _)).trans
      ((HostData.modify_frequency _ _ v (hadd _ _)).trans hids)
  | _ => exact hids

theorem fillMasters_frequency (g : NetworkGraph H) (order : List GlobalNodeID) (s : HostState)
    (v : GlobalNodeID) : ((fillMasters g order s).data v).frequency = (s.data v).frequency := by
  have hedges (node : GlobalNodeID) (es : List OutEdge) (d : HostData) :
      (es.foldl (fillEdge node) d v).frequency = (d v).frequency := by
    induction es generalizing d with
    | nil => rfl
    | cons e es ih => exact (ih _).trans (fillEdge_frequency node v d e)
  induction order generalizing s with
  | nil => rfl
  | cons node order ih =>
    refine (ih _).trans ?_
    rw [fillNodeValues_data]
    exact hedges node (g.edges node) s.data

/-- `CalculateEdgeProbabilities` counts no sets. -/
theorem fillAndSync_frequency (g : NetworkGraph H) (order : Fin H → List GlobalNodeID) (s : Hosts H)
    (h : Fin H) (v : GlobalNodeID) :
    ((fillAndSync g order s h).data v).frequency = ((s h).data v).frequency := by
  have hfill := fillMasters_frequency g (order h) ((s h).clearBits .sold) v
  unfold fillAndSync reduceSet broadcast
  dsimp only
  split_ifs
  · exact (NodeData.set_frequency _ _ _).trans hfill
  · exact hfill

end Frequency
end Frame

end Wf4
