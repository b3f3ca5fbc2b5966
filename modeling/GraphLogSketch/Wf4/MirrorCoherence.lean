import GraphLogSketch.Wf4.CancelLedger
import GraphLogSketch.Wf4.EdgeProbability

/-! What the mirrors hold when `QuiesceGraph` starts. `CalculateEdgeProbabilities` copies only
`sold` to the mirrors, and `CancelNodes` only the counters that a cancelled node charged. -/
namespace Wf4
variable {H : ℕ}

/-- Every mirror holds the counters of its master. -/
def MirrorsCoherent (g : NetworkGraph H) (s : Hosts H) : Prop :=
  ∀ h, ∀ v ∈ g.mirrors h, ∀ c,
    ((s h).data v).get c = ((s (g.getHostID v)).data v).get c

def ZeroCounters (g : NetworkGraph H) (s : Hosts H) : Prop :=
  ∀ h v, g.isLocal h v = true → ∀ c, ((s h).data v).get c = 0

/-- Some edge of kind `t` leads from `u` to `v`. -/
def Trades (g : NetworkGraph H) (t : Types) (u v : GlobalNodeID) : Prop :=
  ∃ e ∈ g.edges u, e.data.type = t ∧ e.edgeDst = v

/-- The kind of edge through which a cancelled neighbour reduces a counter. -/
def Counter.charging : Counter → Types
  | .sold => .purchase
  | .bought => .sale

theorem charges_ne_nil_iff {g : NetworkGraph H} {c : Counter} {u v : GlobalNodeID} :
    charges g c u v ≠ [] ↔ Trades g c.charging u v := by
  rw [Ne, charges, List.map_eq_nil_iff, List.filter_eq_nil_iff]
  cases c <;>
    simp [Trades, Counter.charging, chargedCounter_eq_iff]

theorem hostCharges_ne_nil_iff {g : NetworkGraph H} {h : Fin H} {c : Counter} {v : GlobalNodeID}
    {order : List GlobalNodeID} : hostCharges g h c v order ≠ [] ↔
      ∃ u ∈ order, u ∈ g.masters h ∧ Trades g c.charging u v := by
  constructor
  · intro hne
    obtain ⟨a, cs, hcs⟩ := List.exists_cons_of_ne_nil hne
    obtain ⟨u, hu, hm, ha⟩ := mem_hostCharges (a := a) (by rw [hcs]; exact List.mem_cons_self)
    exact ⟨u, hu, hm, charges_ne_nil_iff.mp (List.ne_nil_of_mem ha)⟩
  · rintro ⟨u, hu, hm, ht⟩ hnil
    have hsub : charges g c u v = [] := by
      have hall := List.flatMap_eq_nil_iff.mp hnil u hu
      rwa [if_pos (g.isOwned_iff.mpr hm)] at hall
    exact charges_ne_nil_iff.mpr ht hsub

section Cancelled
variable {g : NetworkGraph H} {nodes : List GlobalNodeID} {order : Fin H → List GlobalNodeID}
  {s : Hosts H} {c : Counter} {v : GlobalNodeID}

/-- A counter is synchronised exactly when a cancelled node of the graph charged it. -/
theorem touched_iff (hp : ∀ h, (order h).Perm nodes) (hv : v ∉ nodes) :
    Touched g c (cancelOnHosts g order s) v ↔
      ∃ u ∈ nodes, g.IsNode u ∧ Trades g c.charging u v := by
  have hb (h : Fin H) : (cancelOnHosts g order s h).bitset c v = true ↔
      ∃ u ∈ nodes, u ∈ g.masters h ∧ Trades g c.charging u v := by
    rw [(cancelOnHosts_spec fun hm => hv ((hp h).subset hm)).2.2, decide_eq_true_eq,
      hostCharges_ne_nil_iff]
    simp only [(hp h).mem_iff]
  unfold Touched
  simp only [hb]
  constructor
  · rintro (⟨u, hu, hm, ht⟩ | ⟨h, _, u, hu, hm, ht⟩)
    · exact ⟨u, hu, NetworkGraph.isNode_of_master hm, ht⟩
    · exact ⟨u, hu, NetworkGraph.isNode_of_master hm, ht⟩
  · rintro ⟨u, hu, hn, e, he, ht, rfl⟩
    rcases g.edge_local hn he with hm | hm
    · have hh : g.getHostID e.edgeDst = g.getHostID u := g.host_of_master hm
      exact Or.inl ⟨u, hu, by rwa [hh], e, he, ht, rfl⟩
    · exact Or.inr ⟨_, hm, u, hu, hn, e, he, ht, rfl⟩

/-- Untouched copies come out of `CancelNodes` as they went in. -/
theorem cancelNodes_untouched (hp : ∀ h, (order h).Perm nodes) (hv : v ∉ nodes)
    (ht : ¬ ∃ u ∈ nodes, g.IsNode u ∧ Trades g c.charging u v) (h : Fin H) :
    ((cancelNodes g nodes order s h).data v).get c = ((s h).data v).get c := by
  have hnt : ¬ Touched g c (cancelOnHosts g order s) v := fun hx => ht ((touched_iff hp hv).mp hx)
  have hnil : hostCharges g h c v (order h) = [] := by
    by_contra hne
    obtain ⟨u, hu, hm, htr⟩ := hostCharges_ne_nil_iff.mp hne
    exact ht ⟨u, (hp h).subset hu, NetworkGraph.isNode_of_master hm, htr⟩
  rw [cancelNodes_get hv, reduceAdd_of_not_touched hnt,
    (cancelOnHosts_spec fun hm => hv ((hp h).subset hm)).1, hnil]
  rfl

/-- `CancelNodes` leaves a counter of a mirror coherent if it was before, or if the counter was
charged; otherwise it repairs nothing. -/
theorem cancelNodes_coherent_iff (hp : ∀ h, (order h).Perm nodes) (hv : v ∉ nodes) {h : Fin H}
    (hm : v ∈ g.mirrors h) :
    ((cancelNodes g nodes order s h).data v).get c =
        ((cancelNodes g nodes order s (g.getHostID v)).data v).get c ↔
      ((s h).data v).get c = ((s (g.getHostID v)).data v).get c ∨
        ∃ u ∈ nodes, g.IsNode u ∧ Trades g c.charging u v := by
  by_cases ht : ∃ u ∈ nodes, g.IsNode u ∧ Trades g c.charging u v
  · have htouched := (touched_iff (c := c) (s := s) hp hv).mpr ht
    rw [cancelNodes_get hv, cancelNodes_get hv, reduceAdd_mirror_of_touched hm htouched]
    simp [ht]
  · rw [cancelNodes_untouched hp hv ht, cancelNodes_untouched hp hv ht]
    simp [ht]

end Cancelled

section Filled
variable {g : NetworkGraph H} {order : Fin H → List GlobalNodeID} {s : Hosts H}
  {v : GlobalNodeID} {h : Fin H}

theorem fillAndSync_master (hp : ∀ h, (order h).Perm (g.masters h)) (hz : ZeroCounters g s)
    (hv : v ∈ g.masters h) (c : Counter) :
    ((fillAndSync g order s h).data v).get c = amountSum c.source (g.edges v) := by
  have hnm : v ∉ g.mirrors h := fun hx => NetworkGraph.not_master_of_mirror hx hv
  have hn : (order h).Nodup := (hp h).nodup_iff.mpr (g.masters_nodup h)
  rw [fillAndSync, reduceSet, broadcast_of_not_mirror hnm, fillMasters_get g hn,
    if_pos ((hp h).mem_iff.mpr hv), HostState.clearBits_data,
    hz h v (g.isLocal_iff.mpr (Or.inl hv)), zero_add]

/-- The bit of a master is set when its sales are positive, and only then are they copied. -/
theorem fillAndSync_mirror_sold (hp : ∀ h, (order h).Perm (g.masters h)) (hz : ZeroCounters g s)
    (hv : v ∈ g.mirrors h) :
    ((fillAndSync g order s h).data v).get .sold =
      if 0 < amountSum .sale (g.edges v) then amountSum .sale (g.edges v) else 0 := by
  have hm := g.mirror_mastered hv
  have hn (k : Fin H) : (order k).Nodup := (hp k).nodup_iff.mpr (g.masters_nodup k)
  have hnot : v ∉ order h := fun hx =>
    NetworkGraph.not_master_of_mirror hv ((hp h).subset hx)
  have hsold : ((s (g.getHostID v)).data v).sold = 0 :=
    hz (g.getHostID v) v (g.isLocal_iff.mpr (Or.inl hm)) .sold
  have hzero : ((s h).data v).get .sold = 0 := hz h v (g.isLocal_iff.mpr (Or.inr hv)) .sold
  have hbit : (fillMasters g (order (g.getHostID v))
      ((s (g.getHostID v)).clearBits .sold)).bitset .sold v =
        decide (0 < amountSum .sale (g.edges v)) := by
    rw [fillMasters_bitset g (hn _)]
    simp [(hp (g.getHostID v)).mem_iff.mpr hm, hsold]
  rw [fillAndSync, reduceSet]
  by_cases hpos : 0 < amountSum .sale (g.edges v)
  · rw [broadcast_of_flagged hv (by rw [hbit]; simpa using hpos), NodeData.get_set_self,
      fillMasters_get g (hn _), if_pos ((hp _).mem_iff.mpr hm), HostState.clearBits_data, if_pos hpos]
    simp [NodeData.get, hsold, Counter.source]
  · rw [broadcast_of_not_flagged (by rw [hbit]; simpa using hpos), fillMasters_get g (hn _),
      if_neg hnot, if_neg hpos, HostState.clearBits_data, hzero, add_zero]

/-- No mirror learns what its master bought. -/
theorem fillAndSync_mirror_bought (hp : ∀ h, (order h).Perm (g.masters h)) (hz : ZeroCounters g s)
    (hv : v ∈ g.mirrors h) : ((fillAndSync g order s h).data v).get .bought = 0 := by
  have hn : (order h).Nodup := (hp h).nodup_iff.mpr (g.masters_nodup h)
  have hnot : v ∉ order h := fun hx =>
    NetworkGraph.not_master_of_mirror hv ((hp h).subset hx)
  rw [fillAndSync, reduceSet, broadcast_get_of_ne (by decide), fillMasters_get g hn, if_neg hnot,
    HostState.clearBits_data, hz h v (g.isLocal_iff.mpr (Or.inr hv)), add_zero]

end Filled

/-- `CalculateEdgeProbabilities` and then `CancelNodes`, as `main` runs them before
`QuiesceGraph`; nothing in between writes a trade counter. -/
def entryToQuiesce (g : NetworkGraph H) (fillOrder : Fin H → List GlobalNodeID)
    (nodes : List GlobalNodeID) (order : Fin H → List GlobalNodeID) (s : Hosts H) : Hosts H :=
  let p := calculateEdgeProbabilities g fillOrder s
  cancelNodes p.graph nodes order p.hosts

theorem reweigh_trades (g : NetworkGraph H) (fillOrder : Fin H → List GlobalNodeID) (s : Hosts H)
    (t : Types) (u v : GlobalNodeID) :
    Trades (calculateEdgeProbabilities g fillOrder s).graph t u v ↔ Trades g t u v := by
  simp [Trades, calculateEdgeProbabilities, NetworkGraph.reweigh, edgeProbability_edgeDst,
    edgeProbability_data]

section Entry
variable {g : NetworkGraph H} {fillOrder order : Fin H → List GlobalNodeID}
  {nodes : List GlobalNodeID} {s : Hosts H} {h : Fin H} {v : GlobalNodeID}

/-- One counter of one mirror when `QuiesceGraph` starts. -/
theorem entry_coherent_iff (hp : ∀ h, (order h).Perm nodes) (hv : v ∉ nodes)
    (hm : v ∈ g.mirrors h) (c : Counter) :
    ((entryToQuiesce g fillOrder nodes order s h).data v).get c =
        ((entryToQuiesce g fillOrder nodes order s (g.getHostID v)).data v).get c ↔
      ((fillAndSync g fillOrder s h).data v).get c =
          ((fillAndSync g fillOrder s (g.getHostID v)).data v).get c ∨
        ∃ u ∈ nodes, g.IsNode u ∧ Trades g c.charging u v := by
  have hiff := cancelNodes_coherent_iff
    (g := (calculateEdgeProbabilities g fillOrder s).graph)
    (s := (calculateEdgeProbabilities g fillOrder s).hosts) (c := c) hp hv hm
  simp only [reweigh_trades] at hiff
  exact hiff

theorem entry_sold_iff (hf : ∀ h, (fillOrder h).Perm (g.masters h)) (hz : ZeroCounters g s)
    (hp : ∀ h, (order h).Perm nodes) (hv : v ∉ nodes) (hm : v ∈ g.mirrors h) :
    ((entryToQuiesce g fillOrder nodes order s h).data v).get .sold =
        ((entryToQuiesce g fillOrder nodes order s (g.getHostID v)).data v).get .sold ↔
      0 ≤ amountSum .sale (g.edges v) ∨
        ∃ u ∈ nodes, g.IsNode u ∧ Trades g .purchase u v := by
  rw [entry_coherent_iff hp hv hm, fillAndSync_mirror_sold hf hz hm,
    fillAndSync_master hf hz (g.mirror_mastered hm)]
  apply or_congr_left
  simp only [Counter.source]
  split_ifs with hpos
  · simp [hpos.le]
  · constructor
    · intro h0
      exact h0.le
    · intro h0
      exact le_antisymm h0 (not_lt.mp hpos)

theorem entry_bought_iff (hf : ∀ h, (fillOrder h).Perm (g.masters h)) (hz : ZeroCounters g s)
    (hp : ∀ h, (order h).Perm nodes) (hv : v ∉ nodes) (hm : v ∈ g.mirrors h) :
    ((entryToQuiesce g fillOrder nodes order s h).data v).get .bought =
        ((entryToQuiesce g fillOrder nodes order s (g.getHostID v)).data v).get .bought ↔
      amountSum .purchase (g.edges v) = 0 ∨
        ∃ u ∈ nodes, g.IsNode u ∧ Trades g .sale u v := by
  rw [entry_coherent_iff hp hv hm, fillAndSync_mirror_bought hf hz hm,
    fillAndSync_master hf hz (g.mirror_mastered hm), eq_comm]
  rfl

theorem entry_cancelled (hv : v ∈ nodes) (hm : v ∈ g.mirrors h) (c : Counter) :
    ((entryToQuiesce g fillOrder nodes order s h).data v).get c =
      ((entryToQuiesce g fillOrder nodes order s (g.getHostID v)).data v).get c := by
  have hzero {k : Fin H} (hl : g.isLocal k v = true) :
      ((entryToQuiesce g fillOrder nodes order s k).data v).get c = 0 := by
    have hc := cancelLocals_of_mem (calculateEdgeProbabilities g fillOrder s).graph k hv hl
    rw [entryToQuiesce, cancelNodes]
    dsimp only
    rw [← hc, NodeData.cancel_get]
  rw [hzero (g.isLocal_iff.mpr (Or.inr hm)),
    hzero (g.isLocal_iff.mpr (Or.inl (g.mirror_mastered hm)))]

end Entry

/-- When `QuiesceGraph` starts, the mirrors agree with their masters exactly when every mirrored
node that was not cancelled bought nothing or sold to by a cancelled node, and likewise has no
negative sales or was bought from by a cancelled node. -/
theorem entryToQuiesce_coherent_iff (g : NetworkGraph H)
    (fillOrder order : Fin H → List GlobalNodeID) (nodes : List GlobalNodeID) (s : Hosts H)
    (hf : ∀ h, (fillOrder h).Perm (g.masters h)) (hz : ZeroCounters g s)
    (hp : ∀ h, (order h).Perm nodes) :
    MirrorsCoherent g (entryToQuiesce g fillOrder nodes order s) ↔
      ∀ v, v ∉ nodes → (∃ h, v ∈ g.mirrors h) →
        (0 ≤ amountSum .sale (g.edges v) ∨
          ∃ u ∈ nodes, g.IsNode u ∧ Trades g .purchase u v) ∧
        (amountSum .purchase (g.edges v) = 0 ∨
          ∃ u ∈ nodes, g.IsNode u ∧ Trades g .sale u v) := by
  constructor
  · rintro hc v hv ⟨h, hm⟩
    exact ⟨(entry_sold_iff hf hz hp hv hm).mp (hc h v hm .sold),
      (entry_bought_iff hf hz hp hv hm).mp (hc h v hm .bought)⟩
  · intro hcond h v hm c
    by_cases hv : v ∈ nodes
    · exact entry_cancelled hv hm c
    · obtain ⟨hs, hb⟩ := hcond v hv ⟨h, hm⟩
      cases c with
      | sold => exact (entry_sold_iff hf hz hp hv hm).mpr hs
      | bought => exact (entry_bought_iff hf hz hp hv hm).mpr hb

theorem zero_zeroCounters (g : NetworkGraph H) : ZeroCounters g fun _ => HostState.zero :=
  fun _ _ _ c => by simp [HostState.zero]

/-- Cancelling the whole chain leaves nothing to disagree about. -/
theorem entryToQuiesce_coherent_chain :
    MirrorsCoherent chainGraph (entryToQuiesce chainGraph chainGraph.masters [1, 2, 3]
      (fun _ => [1, 2, 3]) fun _ => HostState.zero) := by
  refine (entryToQuiesce_coherent_iff chainGraph chainGraph.masters (fun _ => [1, 2, 3]) [1, 2, 3]
    (fun _ => HostState.zero) (fun _ => .rfl) (zero_zeroCounters _) fun _ => .rfl).mpr ?_
  rintro v hv ⟨h, hm⟩
  have hn := chainGraph_node (chainGraph.mirror_mastered hm)
  exact absurd (by simpa using hn) hv

/-- With node 3 of the chain cancelled, the mirror of node 2 still holds no purchases while its
master holds 5. -/
theorem entryToQuiesce_chain_incoherent :
    Paired chainGraph ∧ ZeroCounters chainGraph (fun _ => HostState.zero) ∧
      ¬ MirrorsCoherent chainGraph (entryToQuiesce chainGraph chainGraph.masters [3]
        (fun _ => [3]) fun _ => HostState.zero) := by
  refine ⟨chainGraph_paired, zero_zeroCounters _, fun hc => ?_⟩
  have hm : (2 : GlobalNodeID) ∈ chainGraph.mirrors 0 := by decide
  have hb := (entry_bought_iff (fun _ => .rfl) (zero_zeroCounters _) (fun _ => .rfl)
    (by decide) hm).mp (hc 0 2 hm .bought)
  simp [chainGraph, tradeEdge, amountSum, Trades] at hb

end Wf4
