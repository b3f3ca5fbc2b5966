import GraphLogSketch.Wf4.MainRun

/-! What `main` leaves behind. The cancelled nodes have traded nothing on any host, and what is bought
is what is sold; every other node has at least what the graph without the cancelled nodes gives it,
and buys no more than it did in the graph that was imported. -/
namespace Wf4
open GreedyCover
variable {H : ℕ}

section Projected
variable {g : FullNetworkGraph H} {v : GlobalNodeID} {e : OutEdge}

theorem projected_edge (he : e ∈ (projectGraph g).edges v) :
    0 < e.data.amount ∧ (e.data.type = .sale ∨ e.data.type = .purchase) := by
  obtain ⟨e, hkept, rfl⟩ := List.mem_map.mp he
  obtain ⟨htype, -, hpos, -⟩ := keepEdge_iff.mp (mem_keptEdges.mp hkept).2.2
  exact ⟨hpos, htype.symm⟩

theorem projected_positive (hpair : g.Paired) : PositiveAmounts (projectedNetworkGraph g hpair) :=
  fun _ _ _ he => (projected_edge he).1

/-- The sales kept from `u` to `v` are matched by the purchases kept from `v` to `u`. -/
theorem projected_paired (hpair : g.Paired) : Paired (projectedNetworkGraph g hpair) := by
  intro u v _ _
  have hsale := amounts_eq (g := g) (u := u) (v := v) (Or.inl rfl)
  have hpurchase := amounts_eq (g := g) (u := v) (v := u) (Or.inr rfl)
  have hkeeps : (fun a : UInt64 × ℚ => decide (KeepsTrade g u v a.1 a.2)) =
      fun a => decide (KeepsTrade g v u a.1 a.2) :=
    funext fun a => decide_eq_decide.mpr keepsTrade_comm
  have hperm := (((hpair u v).filter fun a => decide (KeepsTrade g u v a.1 a.2)).map Prod.snd)
  rw [← hsale] at hperm
  rw [hkeeps, ← hpurchase] at hperm
  exact hperm

end Projected

section Weighed
variable (g : NetworkGraph H) (fillOrder : Fin H → List GlobalNodeID) (s : Hosts H)

/-- Weighing the edges changes neither their ends nor their kinds and amounts. -/
theorem weighed_amounts (P : OutEdge → Bool)
    (hP : ∀ e e' : OutEdge, e'.edgeDst = e.edgeDst → e'.data.type = e.data.type → P e' = P e)
    (v : GlobalNodeID) :
    (((calculateEdgeProbabilities g fillOrder s).graph.edges v).filter P).map
        (fun e => e.data.amount) = ((g.edges v).filter P).map fun e => e.data.amount := by
  show (List.filter P ((g.edges v).map _)).map _ = _
  rw [List.filter_map, List.map_map]
  have hsel : P ∘ (fun e =>
      (edgeProbability (fillAndSync g fillOrder s (g.getHostID v)).data v e).1) = P :=
    funext fun e => hP _ _ (edgeProbability_edgeDst ..) (edgeProbability_data ..).1
  rw [hsel]
  exact List.map_congr_left fun e _ => (edgeProbability_data ..).2

theorem weighed_paired (hpair : Paired g) :
    Paired (calculateEdgeProbabilities g fillOrder s).graph := by
  intro u v hu hv
  have hsame (t : Types) (u v : GlobalNodeID) :
      amountsBetween (calculateEdgeProbabilities g fillOrder s).graph t u v =
        amountsBetween g t u v :=
    weighed_amounts g fillOrder s _ (fun e e' hd ht => by rw [hd, ht]) u
  simpa only [hsame] using hpair u v hu hv

theorem weighed_positive (hpos : PositiveAmounts g) :
    PositiveAmounts (calculateEdgeProbabilities g fillOrder s).graph := by
  intro v hv e he
  obtain ⟨e', he', rfl⟩ := List.mem_map.mp he
  have hamount := (edgeProbability_data (fillAndSync g fillOrder s (g.getHostID v)).data v e').2
  rw [hamount]
  exact hpos v hv e' he'

theorem weighed_amountSum (t : Types) (v : GlobalNodeID) :
    amountSum t ((calculateEdgeProbabilities g fillOrder s).graph.edges v) =
      amountSum t (g.edges v) :=
  congrArg List.sum (weighed_amounts g fillOrder s _ (fun _ _ _ ht => by rw [ht]) v)

/-- So do the totals over the edges to the nodes outside a list. -/
theorem weighed_amountSum_filter (t : Types) (nodes : List GlobalNodeID) (v : GlobalNodeID) :
    amountSum t (((calculateEdgeProbabilities g fillOrder s).graph.edges v).filter fun e =>
      e.edgeDst ∉ nodes) = amountSum t ((g.edges v).filter fun e => e.edgeDst ∉ nodes) := by
  unfold amountSum
  rw [List.filter_filter, List.filter_filter]
  exact congrArg List.sum (weighed_amounts g fillOrder s _ (fun _ _ hd ht => by rw [hd, ht]) v)

end Weighed

theorem amountSum_filter_le {t : Types} {es : List OutEdge} {P : OutEdge → Bool}
    (hpos : ∀ e ∈ es, 0 < e.data.amount) : amountSum t (es.filter P) ≤ amountSum t es := by
  refine List.Sublist.sum_le_sum ((List.filter_sublist.filter _).map _) fun a ha => ?_
  obtain ⟨e, he, rfl⟩ := List.mem_map.mp ha
  exact (hpos e (List.mem_filter.mp he).1).le

section Deleted
variable {g : NetworkGraph H} {nodes : List GlobalNodeID} {v : GlobalNodeID}

theorem deleteNodes_isNode : (g.deleteNodes nodes).IsNode v ↔ g.IsNode v ∧ v ∉ nodes := by
  simp [NetworkGraph.IsNode, NetworkGraph.deleteNodes]

/-- Without some of its nodes a paired graph is still paired. -/
theorem deleteNodes_paired (hpair : Paired g) : Paired (g.deleteNodes nodes) := by
  intro u v hu hv
  have hsame {t : Types} {u v : GlobalNodeID} (hv : v ∉ nodes) :
      amountsBetween (g.deleteNodes nodes) t u v = amountsBetween g t u v := by
    unfold amountsBetween NetworkGraph.deleteNodes
    rw [List.filter_filter]
    congr 1
    apply List.filter_congr
    intro e _
    by_cases hd : e.edgeDst = v
    · simp [hd, hv]
    · simp [hd]
  rw [hsame (deleteNodes_isNode.mp hv).2, hsame (deleteNodes_isNode.mp hu).2]
  exact hpair u v (deleteNodes_isNode.mp hu).1 (deleteNodes_isNode.mp hv).1

end Deleted

namespace QuiesceRun
variable {g : NetworkGraph H} {entry : Hosts H} (r : QuiesceRun g entry) {h : Fin H}
  {v : GlobalNodeID}

theorem bought_le_ended (h : Fin H) (v : GlobalNodeID) :
    ((entry h).data v).bought ≤ ((r.ended h).data v).bought := by
  have htraded : ((entry h).data v).bought ≤ ((r.traded h).host.data v).bought :=
    (r.traded_ledger h).pool.cap_ge v
  have hdecided := r.decided_nonneg v h
  rw [r.ended_bought]
  linarith

theorem ended_bought_le (hv : v ∈ g.masters h) : ((r.ended h).data v).bought ≤
    max ((entry h).data v).desired ((entry h).data v).bought := by
  have hbuyer := (r.traded_ledger h).buyer v
  rw [r.trades_end h v hv] at hbuyer
  have hbuyer : ((r.traded h).host.data v).bought + (r.traded h).proposedBy v ≤ _ := hbuyer
  have hdecided := r.decided_le_proposed hv
  rw [r.ended_bought]
  linarith

theorem sold_le_ended (h : Fin H) (v : GlobalNodeID) :
    ((entry h).data v).sold ≤ ((r.ended h).data v).sold := by
  have htraded := (r.traded_ledger h).pool.settled_ge v
  have hgranted := (r.granted_ledger h).pool.settled_ge v
  have hsold : ((r.ended h).data v).sold = ((r.granted h).host.data v).sold :=
    addPurchaseEdges_sold ..
  rw [r.granted_settled] at hgranted
  rw [r.traded_settled] at htraded
  rw [hsold]
  exact htraded.trans hgranted

theorem ended_sold_le (h : Fin H) (v : GlobalNodeID) : ((r.ended h).data v).sold ≤
    max ((r.ended h).data v).bought ((entry h).data v).sold := by
  have htraded := (r.traded_ledger h).pool.reserved_le (r.traded_idle h) v
  have hgranted := (r.granted_ledger h).pool.reserved_le (r.granted_idle h) v
  have hdecided := r.decided_nonneg v h
  have hsold : ((r.ended h).data v).sold = ((r.granted h).host.data v).sold :=
    addPurchaseEdges_sold ..
  have htraded : ((r.traded h).host.data v).sold ≤
      max ((r.traded h).host.data v).bought ((entry h).data v).sold := htraded
  have hgranted : ((r.granted h).host.data v).sold ≤
      max ((r.granted h).host.data v).bought ((r.traded h).host.data v).sold := hgranted
  rw [(r.granted_ledger h).bought] at hgranted
  rw [hsold, r.ended_bought]
  have hmore : ((r.traded h).host.data v).bought ≤
      ((r.traded h).host.data v).bought + keyedSum (bySrc v) (r.decided h) := by linarith
  exact hgranted.trans (max_le (le_max_of_le_left hmore)
    (htraded.trans (max_le_max hmore le_rfl)))

theorem final_desired (h : Fin H) (v : GlobalNodeID) :
    ((r.final h).data v).desired = ((entry h).data v).desired := by
  rw [final, reduceSet, broadcast_desired, reduceSet, broadcast_desired, r.ended_desired]

/-- A node that needs nothing and has nothing to sell on any host is left alone. -/
theorem final_idle (hall : ∀ h, g.isLocal h v = true → ((entry h).data v).Idle)
    (hl : g.isLocal h v = true) : ((r.final h).data v).Idle := by
  have hmaster {k : Fin H} (hv : v ∈ g.masters k) (c : Counter) :
      ((r.ended k).data v).get c = 0 := by
    obtain ⟨hs, hb, hd⟩ := hall k (g.isLocal_iff.mpr (Or.inl hv))
    have hb₀ := r.bought_le_ended k v
    have hb₁ := r.ended_bought_le hv
    have hs₀ := r.sold_le_ended k v
    have hs₁ := r.ended_sold_le k v
    rw [hb] at hb₀
    rw [hb, hd, max_self] at hb₁
    rw [hs] at hs₀
    rw [hs, le_antisymm hb₁ hb₀, max_self] at hs₁
    cases c with
    | bought => exact le_antisymm hb₁ hb₀
    | sold => exact le_antisymm hs₁ hs₀
  have hget (c : Counter) : ((r.final h).data v).get c = 0 := by
    rcases g.isLocal_iff.mp hl with hv | hv
    · rw [r.final_master hv]
      exact hmaster hv c
    · have hn := NetworkGraph.not_master_of_mirror hv
      rw [r.final_mirror hv]
      split_ifs
      · exact hmaster (g.mirror_mastered hv) c
      · obtain ⟨hs, hb, _⟩ := hall h hl
        cases c with
        | bought => exact (r.mirror_bought hn).trans hb
        | sold =>
          have hsettled : (r.traded h).pool.settled v = ((entry h).data v).sold := by
            by_contra hraised
            have hroom := r.raised_room hn hraised
            rw [hs, hb] at hroom
            exact lt_irrefl 0 hroom
          exact (r.mirror_sold hn).trans (hsettled.trans hs)
  exact ⟨hget .sold, hget .bought, (r.final_desired h v).trans (hall h hl).desired⟩

/-- Whatever the schedule, as much is bought as is sold. -/
theorem gained_eq : masterTotal g .bought r.final - masterTotal g .bought entry =
    masterTotal g .sold r.final - masterTotal g .sold entry := by
  have hbought (h : Fin H) : ∑ v ∈ (g.masters h).toFinset,
      (((r.final h).data v).bought - ((entry h).data v).bought) =
      ∑ v ∈ (g.masters h).toFinset,
        (((r.traded h).host.data v).bought - ((entry h).data v).bought) +
        keyedSum (fun _ => 1) (r.decided h) := by
    rw [← r.sum_bySrc_decided, ← Finset.sum_add_distrib]
    refine Finset.sum_congr rfl fun v hv => ?_
    rw [r.final_master (List.mem_toFinset.mp hv), r.ended_bought]
    ring
  have hsold (h : Fin H) : ∑ v ∈ (g.masters h).toFinset,
      (((r.final h).data v).sold - ((entry h).data v).sold) =
      ∑ v ∈ (g.masters h).toFinset,
        (((r.traded h).host.data v).bought - ((entry h).data v).bought) +
        (r.granted h).remoteEdges.total fun _ => 1 := by
    rw [← r.sum_byDst_granted, (r.traded_ledger h).conserved, ← Finset.sum_add_distrib]
    refine Finset.sum_congr rfl fun v hv => ?_
    rw [r.final_master (List.mem_toFinset.mp hv), r.ended_sold, r.traded_settled]
    ring
  have hdecided : ∑ h, keyedSum (fun _ => 1) (r.decided h) =
      ∑ h, (r.granted h).remoteEdges.total fun _ => 1 := by
    simp only [r.keyedSum_decided]
    exact sum_keyedSum_received _ r.granted_own
  have htotal (c : Counter) : masterTotal g c r.final - masterTotal g c entry =
      ∑ h, ∑ v ∈ (g.masters h).toFinset, (((r.final h).data v).get c - ((entry h).data v).get c) := by
    simp only [masterTotal, Finset.sum_sub_distrib]
  have hb := htotal .bought
  have hs := htotal .sold
  simp only [NodeData.get, hbought, Finset.sum_add_distrib] at hb
  simp only [NodeData.get, hsold, Finset.sum_add_distrib] at hs
  linarith

end QuiesceRun

namespace MainRun
variable {i : MainInput H} (r : MainRun i) {h : Fin H} {v : GlobalNodeID} {c : Counter}

theorem graph_paired : Paired r.graph := weighed_paired _ _ _ (projected_paired i.paired)

theorem graph_positive : PositiveAmounts r.graph := weighed_positive _ _ _ (projected_positive i.paired)

theorem entered_trades (h : Fin H) (v : GlobalNodeID) : ((r.entered h).data v).trades =
    ((fillAndSync i.network r.fillOrder i.hosts h).data v).trades :=
  r.choosing.selection.trades.trans r.generated.trades

theorem zeroCounters (i : MainInput H) : ZeroCounters i.network i.hosts := by
  intro h v hl c
  cases c with
  | sold => exact (i.idle h v hl).sold
  | bought => exact (i.idle h v hl).bought

theorem entered_get (hv : v ∈ r.graph.masters h) (c : Counter) :
    ((r.entered h).data v).get c = amountSum c.source (i.network.edges v) := by
  rw [NodeData.get_eq_of_trades (r.entered_trades h v)]
  exact fillAndSync_master r.fillOrder_perm (zeroCounters i) hv c

theorem entered_desired (hv : v ∈ r.graph.masters h) :
    ((r.entered h).data v).desired = amountSum .purchase (i.network.edges v) := by
  have hv : v ∈ i.network.masters h := hv
  have hn : (r.fillOrder h).Nodup := (r.fillOrder_perm h).nodup_iff.mpr (i.network.masters_nodup h)
  have hzero := (i.idle h v (i.network.isLocal_iff.mpr (Or.inl hv))).desired
  rw [NodeData.desired_eq_of_trades (r.entered_trades h v), fillAndSync, reduceSet,
    broadcast_desired, fillMasters_desired _ hn, if_pos ((r.fillOrder_perm h).mem_iff.mpr hv),
    HostState.clearBits_data, hzero, zero_add]

theorem entered_mirrors : NonnegativeMirrors r.graph r.entered := by
  intro h v hv c
  rw [NodeData.get_eq_of_trades (r.entered_trades h v)]
  cases c with
  | bought => exact (fillAndSync_mirror_bought r.fillOrder_perm (zeroCounters i) hv).ge
  | sold =>
    rw [fillAndSync_mirror_sold r.fillOrder_perm (zeroCounters i) hv]
    split_ifs with hpos
    · exact hpos.le
    · exact le_rfl

theorem cancelled_idle (hv : v ∈ influentialNodes r.picks h) (hl : r.graph.isLocal h v = true) :
    ((r.cancelled h).data v).Idle := by
  have hc := cancelLocals_of_mem r.graph h hv hl
    (reduceAdd r.graph .sold (reduceAdd r.graph .bought
      (cancelOnHosts r.graph r.cancelOrder r.entered)) h)
  exact ⟨(congrArg NodeData.sold hc).symm, (congrArg NodeData.bought hc).symm,
    (congrArg NodeData.desired hc).symm⟩

section Returned
variable {nodes : List GlobalNodeID} (hret : ∀ h, influentialNodes r.picks h = nodes)
include hret

theorem cancelled_eq : r.cancelled = cancelNodes r.graph nodes r.cancelOrder r.entered := by
  rw [cancelled, show influentialNodes r.picks = fun _ => nodes from funext hret]
  rfl

theorem cancelOrder_nodes (h : Fin H) : (r.cancelOrder h).Perm nodes :=
  hret h ▸ r.cancelOrder_perm h

theorem cancelled_get (hn : nodes.Nodup) (hv : v ∈ r.graph.masters h) (hnot : v ∉ nodes)
    (c : Counter) : ((r.cancelled h).data v).get c =
      amountSum c.source ((i.network.edges v).filter fun e => e.edgeDst ∉ nodes) := by
  have hentered : ((r.entered h).data v).get c = amountSum c.source (r.graph.edges v) := by
    rw [r.entered_get hv]
    exact (weighed_amountSum ..).symm
  have hleft := charges_total (c := c) r.graph_paired hn (NetworkGraph.isNode_of_master hv)
  rw [r.cancelled_eq hret, cancelNodes_get hnot,
    reduceAdd_cancelOnHosts r.graph_positive r.entered_mirrors (r.cancelOrder_nodes hret) hv hnot,
    sum_hostCharges (r.cancelOrder_nodes hret), hentered, hleft]
  exact weighed_amountSum_filter ..

theorem cancelled_desired (hv : v ∈ r.graph.masters h) (hnot : v ∉ nodes) :
    ((r.cancelled h).data v).desired = amountSum .purchase (i.network.edges v) := by
  rw [r.cancelled_eq hret, cancelNodes_desired hnot (r.cancelOrder_nodes hret h),
    r.entered_desired hv]

/-- When `QuiesceGraph` is called, the masters hold what the graph without the cancelled nodes
gives them. -/
theorem cancelled_total (hn : nodes.Nodup) (c : Counter) : masterTotal r.graph c r.cancelled =
    ∑ v ∈ (i.network.deleteNodes nodes).nodes,
      amountSum c.source ((i.network.deleteNodes nodes).edges v) := by
  rw [← sum_hosts (g := i.network.deleteNodes nodes) (fun _ => .rfl)]
  refine Finset.sum_congr rfl fun h _ => ?_
  have hvalue (v : GlobalNodeID) (hv : v ∈ (r.graph.masters h).toFinset) :
      ((r.cancelled h).data v).get c =
        if v ∉ nodes then amountSum c.source ((i.network.deleteNodes nodes).edges v) else 0 := by
    have hv := List.mem_toFinset.mp hv
    by_cases hnot : v ∉ nodes
    · rw [if_pos hnot]
      exact r.cancelled_get hret hn hv hnot c
    · have hidle := r.cancelled_idle (hret h ▸ not_not.mp hnot)
        (r.graph.isLocal_iff.mpr (Or.inl hv))
      rw [if_neg hnot]
      cases c with
      | sold => exact hidle.sold
      | bought => exact hidle.bought
  have hmasters : ((r.graph.masters h).toFinset).filter (· ∉ nodes) =
      ((i.network.deleteNodes nodes).masters h).toFinset := by
    ext v
    simp only [Finset.mem_filter, List.mem_toFinset, NetworkGraph.deleteNodes, List.mem_filter,
      decide_eq_true_eq]
    exact Iff.rfl
  rw [Finset.sum_congr rfl hvalue, ← Finset.sum_filter, hmasters]
  exact List.sum_toFinset _ ((i.network.deleteNodes nodes).masters_nodup h)

theorem final_total (hn : nodes.Nodup) :
    masterTotal r.graph .bought r.final = masterTotal r.graph .sold r.final := by
  have hpaired : Paired (i.network.deleteNodes nodes) :=
    deleteNodes_paired (projected_paired i.paired)
  have hsame : masterTotal r.graph .bought r.cancelled = masterTotal r.graph .sold r.cancelled := by
    rw [r.cancelled_total hret hn .bought, r.cancelled_total hret hn .sold]
    exact sum_purchases hpaired
  have hgained : masterTotal r.graph .bought r.final - masterTotal r.graph .bought r.cancelled =
      masterTotal r.graph .sold r.final - masterTotal r.graph .sold r.cancelled :=
    r.quiesced.gained_eq
  linarith

/-- What a master that was not cancelled has in the end, by the edges that are left to it. -/
theorem final_bounds (hn : nodes.Nodup) (hv : v ∈ r.graph.masters h) (hnot : v ∉ nodes) :
    let left := (i.network.edges v).filter fun e => e.edgeDst ∉ nodes
    ((r.final h).data v).desired = amountSum .purchase (i.network.edges v) ∧
      amountSum .purchase left ≤ ((r.final h).data v).bought ∧
      ((r.final h).data v).bought ≤ ((r.final h).data v).desired ∧
      amountSum .sale left ≤ ((r.final h).data v).sold ∧
      ((r.final h).data v).sold ≤ max ((r.final h).data v).bought (amountSum .sale left) := by
  intro left
  have hb : ((r.cancelled h).data v).bought = amountSum .purchase left :=
    r.cancelled_get hret hn hv hnot .bought
  have hs : ((r.cancelled h).data v).sold = amountSum .sale left :=
    r.cancelled_get hret hn hv hnot .sold
  have hd := r.cancelled_desired hret hv hnot
  have hfinal : (r.final h).data v = (r.quiesced.ended h).data v := r.quiesced.final_master hv
  have hdesired : ((r.final h).data v).desired = ((r.cancelled h).data v).desired :=
    r.quiesced.final_desired h v
  have hkept : amountSum .purchase left ≤ amountSum .purchase (i.network.edges v) :=
    amountSum_filter_le fun e he => (projected_edge he).1
  have hmost := r.quiesced.ended_bought_le hv
  have hmore := r.quiesced.bought_le_ended h v
  have hsmost := r.quiesced.ended_sold_le h v
  have hsmore := r.quiesced.sold_le_ended h v
  change _ ≤ max ((r.cancelled h).data v).desired ((r.cancelled h).data v).bought at hmost
  change ((r.cancelled h).data v).bought ≤ _ at hmore
  change _ ≤ max _ ((r.cancelled h).data v).sold at hsmost
  change ((r.cancelled h).data v).sold ≤ _ at hsmore
  rw [hb, hd, max_eq_left hkept] at hmost
  rw [hb] at hmore
  rw [hs] at hsmost hsmore
  rw [hdesired, hfinal, hd]
  exact ⟨rfl, hmore, hmost, hsmore, hsmost⟩

theorem final_cancelled {k : Fin H} (hv : v ∈ influentialNodes r.picks k)
    (hl : r.graph.isLocal h v = true) : ((r.final h).data v).Idle := by
  refine r.quiesced.final_idle (fun j hj => r.cancelled_idle ?_ hj) hl
  rw [hret j, ← hret k]
  exact hv

end Returned

/-- What the generation leaves is what the selection relies on: every member of a set is a node, and
the counters count the sets. -/
theorem sampled_consistent : Consistent r.graph r.sampled where
  nodes := by
    rintro ⟨h, j⟩ v hv
    obtain ⟨k, hk, hS⟩ := List.mem_map.mp (List.get_mem (r.generated.sets h) j)
    obtain ⟨S, hstored⟩ := r.generated.exists_stored hk
    have hv : v ∈ (r.generated.sets h).get j := hv
    rw [← hS, hstored] at hv
    have hmem : Generating.storedSet h k S ∈ r.generated.final.sets :=
      r.generated.final.mem_sets.mpr (Or.inr (Or.inr
        ⟨h, k, S, by rw [hstored]; exact List.mem_singleton_self S, rfl⟩))
    exact (r.generated.final_inv.wellFormed _ hmem).nodes v hv
  frequency v hv := by
    have hlt : r.generated.final.settledCount v < 2 ^ 64 :=
      ((r.generated.settledCount_le v).trans_eq (i.generation _).sum_hostSets).trans_lt
        (i.generation _).globalSets.toNat_lt
    have hzero : (((i.weighed r.fillOrder).hosts (r.graph.getHostID v)).data v).frequency = 0 :=
      (fillAndSync_frequency ..).trans (i.uncounted _ v hv)
    have hcount : (r.generated.final.store (r.graph.getHostID v) v).frequency =
        (((i.weighed r.fillOrder).hosts (r.graph.getHostID v)).data v).frequency +
          UInt64.ofNat (r.generated.final.settledCount v) := r.generated.final_inv.frequency v hv
    have hgain : gain (family r.sampled) v = r.generated.final.settledCount v := by
      rw [r.generated.settledCount_final, gain_family]
      exact Finset.sum_congr rfl fun h _ => gain_get (r.generated.sets h) v
    rw [hgain]
    show (r.generated.final.store (r.graph.getHostID v) v).frequency.toNat = _
    rw [hcount, hzero, zero_add, UInt64.toNat_ofNat', Nat.mod_eq_of_lt hlt]
  unsent _ _ := rfl

/-- No set is empty, since it contains its root. -/
theorem left_sampled : left (family r.sampled) = i.options.rrr.toNat := by
  have hall : (Finset.univ.filter fun x => (family r.sampled x).Nonempty) = Finset.univ := by
    refine Finset.filter_true_of_mem fun x _ => ?_
    obtain ⟨k, hk, hS⟩ := List.mem_map.mp (List.get_mem (r.generated.sets x.1) x.2)
    obtain ⟨S, hstored⟩ := r.generated.exists_stored hk
    have hroot := (r.generated.stored_explored (S := S)
      (by rw [hstored]; exact List.mem_singleton_self S)).sound.root_mem
    have hset : family r.sampled x = S := by
      show (r.generated.sets x.1).get x.2 = S
      rw [← hS, hstored]
      rfl
    rw [hset]
    exact ⟨_, hroot⟩
  have hcard : Fintype.card ((h : Fin H) × Fin (r.generated.sets h).length) =
      ∑ h, ((i.generation r.fillOrder).hostSets h).toNat := by
    rw [Fintype.card_sigma]
    exact Finset.sum_congr rfl fun h _ => (Fintype.card_fin _).trans (r.generated.sets_length h)
  rw [left, hall, Finset.card_univ, hcard, (i.generation r.fillOrder).sum_hostSets]
  rfl

/-- The hosts return the same distinct nodes if fewer picks never hit every set. -/
theorem returnsDistinctNodes (hleft : ∀ ms, Greedy (MostInfluential r.graph) (family r.sampled) ms →
      ms.length < i.options.k.toNat → ∃ x, (remaining (family r.sampled) ms x).Nonempty) :
    ReturnsDistinctNodes r.graph r.picks := by
  have hlen : r.picks.length = i.options.k.toNat := by rw [List.length_map, r.lines_length]
  obtain ⟨ms, hms, hpicks⟩ := r.choosing.selection.most_influential r.sampled_consistent
    i.node_bound hleft hlen.le
  obtain ⟨hnodup, hnodes⟩ := greedy_nodup hms
  refine ⟨ms.reverse, fun h => ?_, List.nodup_reverse.mpr hnodup, fun v hv =>
    hnodes v (List.mem_reverse.mp hv)⟩
  rw [influentialNodes, show r.picks = _ from hpicks, ← List.map_reverse, List.map_map]
  exact List.map_id ms.reverse

/-- A single pick is a node. -/
theorem returnsDistinctNodes_one (hk : i.options.k = 1) : ReturnsDistinctNodes r.graph r.picks := by
  refine r.returnsDistinctNodes fun ms _ hlt => ?_
  rw [hk] at hlt
  have hnil : ms = [] := List.eq_nil_of_length_eq_zero (Nat.lt_one_iff.mp hlt)
  have hpos : 0 < left (family r.sampled) := by
    rw [r.left_sampled]
    exact (ProgramOptions.pos_of_verify i.verified).2
  obtain ⟨x, hx⟩ := Finset.card_pos.mp hpos
  exact ⟨x, by rw [hnil, remaining_nil]; exact (Finset.mem_filter.mp hx).2⟩

end MainRun

section Progress

/-- `main` has a run when every host masters a node of the projected graph. -/
theorem mainRun_nonempty (i : MainInput H) (hmasters : ∀ h, i.network.masters h ≠ []) :
    Nonempty (MainRun i) := by
  obtain ⟨generated⟩ := generationRun_nonempty (i.generation i.network.masters) hmasters
    i.options.epochs.toNat fun h => ((i.weighed i.network.masters).hosts h).data
  obtain ⟨l, ls, chosen, choosing, hlen⟩ := exists_reportedSelection (i.weighed i.network.masters).graph
    (startSelection generated.final.store fun h => (generated.sets h).get)
    (i.options.k.toNat - 1)
  obtain ⟨quiesced⟩ := quiesceRun_nonempty (i.weighed i.network.masters).graph
    (cancelReturned (i.weighed i.network.masters).graph
      (influentialNodes ((l :: ls).map PickLine.node))
      (influentialNodes ((l :: ls).map PickLine.node)) fun h =>
        { (i.weighed i.network.masters).hosts h with data := (chosen h).data })
  have hk := (ProgramOptions.pos_of_verify i.verified).1
  exact ⟨{
    fillOrder := i.network.masters
    fillOrder_perm := fun _ => .rfl
    generated := generated
    lines := l :: ls
    chosen := chosen
    choosing := choosing
    lines_length := by
      rw [List.length_cons, hlen]
      omega
    cancelOrder := influentialNodes ((l :: ls).map PickLine.node)
    cancelOrder_perm := fun _ => .rfl
    quiesced := quiesced }⟩

theorem coffeeHosts_lt : 2 < 2 ^ 32 := by decide

theorem coffeeGraph_node_bound : ∃ v, ¬ (projectGraph coffeeGraph).IsNode v :=
  ⟨4, fun h4 => projectGraph_isNode_iff.mp h4 (by decide)⟩

/-- The trade of coffee between persons 1 and 2. -/
def coffeeTrade (options : ProgramOptions) (verified : options.Verify = true) : MainInput 2 where
  fullGraph := coffeeGraph
  hosts _ := HostState.zero
  options := options
  paired := coffeeGraph_paired
  verified := verified
  hosts_pos := Nat.two_pos
  hosts_lt := coffeeHosts_lt
  node_bound := coffeeGraph_node_bound
  idle _ _ _ := ⟨rfl, rfl, rfl⟩
  uncounted _ _ _ := rfl

def coffeeOptions : ProgramOptions :=
  { k := 1, rrr := 3, epochs := 2, inputDirectory := ['d', 'a', 't', 'a'] }

theorem coffeeOptions_verify : coffeeOptions.Verify = true := by decide

/-- One node is to be cancelled. -/
def coffeeInput : MainInput 2 := coffeeTrade coffeeOptions coffeeOptions_verify

theorem exists_coffeeRun : Nonempty (MainRun coffeeInput) := by
  apply mainRun_nonempty
  intro h
  fin_cases h <;> decide

def twoPicks : ProgramOptions := { coffeeOptions with k := 2 }

theorem twoPicks_verify : twoPicks.Verify = true := by decide

def twoPicksInput : MainInput 2 := coffeeTrade twoPicks twoPicks_verify

theorem exists_twoPicksRun : Nonempty (MainRun twoPicksInput) := by
  apply mainRun_nonempty
  intro h
  fin_cases h <;> decide

end Progress

section Results
variable {i : MainInput H}

/-- Whatever is drawn and however the hosts run, the nodes `main` cancels are in at least the
`1 - (1 - 1/k)^k` share of the random sets that any `k` nodes are in. -/
theorem main_influencers_share (r : MainRun i) (h : Fin H) (ts : List GlobalNodeID)
    (hts : ts.length ≤ i.options.k.toNat) :
    (i.options.k.toNat ^ i.options.k.toNat - (i.options.k.toNat - 1) ^ i.options.k.toNat) *
        (hit (family r.sampled) ts).card ≤
      i.options.k.toNat ^ i.options.k.toNat *
        (hit (family r.sampled) (influentialNodes r.picks h)).card := by
  have hgreedy := (r.choosing.selection.greedy r.sampled_consistent i.node_bound h).1
  have hlen : (r.picks.map fun q => q h).length = i.options.k.toNat := by
    rw [List.length_map, List.length_map, r.lines_length]
  have hpos := (ProgramOptions.pos_of_verify i.verified).1
  have hshare := hgreedy.bound (hlen ▸ hts) (hlen ▸ hpos)
  have hsame : hit (family r.sampled) (influentialNodes r.picks h) =
      hit (family r.sampled) (r.picks.map fun q => q h) := by
    ext x
    rw [mem_hit, mem_hit, influentialNodes]
    simp
  rw [hlen] at hshare
  rw [hsame]
  exact hshare

theorem main_influencers_share_coffee : ∃ r : MainRun twoPicksInput,
    ∀ h, (2 ^ 2 - (2 - 1) ^ 2) * (hit (family r.sampled) [1, 2]).card ≤
      2 ^ 2 * (hit (family r.sampled) (influentialNodes r.picks h)).card := by
  obtain ⟨r⟩ := exists_twoPicksRun
  exact ⟨r, fun h => main_influencers_share r h [1, 2] (Nat.le_refl 2)⟩

/-- The lines `main` prints account for all the sets that were asked for: those of all picks but the
last, and those that the hosts report as not influenced. -/
theorem main_report (r : MainRun i) (h : Fin H) :
    ∑ k, uninfluencedSets (r.chosen k) + (r.lines.tail.map fun x => (x.occurred h).toNat).sum =
        i.options.rrr.toNat ∧
      (r.lines.map fun x => x.occurred h).Pairwise (· ≤ ·) ∧
      ∀ x ∈ r.lines, ∀ k, x.occurred k = x.occurred h := by
  refine ⟨?_, r.choosing.sorted r.sampled_consistent i.node_bound h,
    fun x hx k => r.choosing.agreed r.sampled_consistent i.node_bound hx k h⟩
  rw [sum_uninfluencedSets, r.choosing.accounted r.sampled_consistent i.node_bound h]
  exact r.left_sampled

/-- A node that was cancelled has nothing sold, bought or desired when `main` returns, on whatever
host. -/
theorem main_cancelled (r : MainRun i) (hret : ReturnsDistinctNodes r.graph r.picks) (h k : Fin H)
    {v : GlobalNodeID} (hv : v ∈ influentialNodes r.picks k) (hl : r.graph.isLocal h v = true) :
    ((r.final h).data v).Idle := by
  obtain ⟨nodes, hnodes, _⟩ := hret
  exact r.final_cancelled hnodes hv hl

theorem main_cancelled_coffee : ∃ r : MainRun coffeeInput, ∃ h v,
    v ∈ influentialNodes r.picks h ∧ ((r.final h).data v).Idle := by
  obtain ⟨r⟩ := exists_coffeeRun
  have hret := r.returnsDistinctNodes_one rfl
  obtain ⟨nodes, hnodes, _, hnode⟩ := id hret
  have hlen : nodes.length = 1 := by
    rw [← hnodes ⟨0, two_pos⟩, influentialNodes, List.length_map, List.length_reverse,
      List.length_map, r.lines_length]
    rfl
  obtain ⟨v, rfl⟩ := List.length_eq_one_iff.mp hlen
  have hmem (h : Fin 2) : v ∈ influentialNodes r.picks h := by
    rw [hnodes h]
    exact List.mem_singleton_self v
  have hlocal : r.graph.isLocal (r.graph.getHostID v) v = true :=
    r.graph.isLocal_iff.mpr (Or.inl (hnode v (List.mem_singleton_self v)))
  let home := r.graph.getHostID v
  exact ⟨r, home, v, hmem home, main_cancelled r hret home home (hmem home) hlocal⟩

/-- When `main` returns, as much is bought as is sold. A node that was not cancelled still desires all
its purchases, has bought at least those from nodes that were not cancelled and at most all of them,
and has sold at least its sales to nodes that were not cancelled and, if it sold more, no more than it
bought. -/
theorem main_balance (r : MainRun i) (hret : ReturnsDistinctNodes r.graph r.picks) :
    masterTotal r.graph .bought r.final = masterTotal r.graph .sold r.final ∧
      ∀ h, ∀ v ∈ r.graph.masters h, v ∉ influentialNodes r.picks h →
        let left := (i.network.edges v).filter fun e => e.edgeDst ∉ influentialNodes r.picks h
        ((r.final h).data v).desired = amountSum .purchase (i.network.edges v) ∧
          amountSum .purchase left ≤ ((r.final h).data v).bought ∧
          ((r.final h).data v).bought ≤ ((r.final h).data v).desired ∧
          amountSum .sale left ≤ ((r.final h).data v).sold ∧
          ((r.final h).data v).sold ≤ max ((r.final h).data v).bought (amountSum .sale left) := by
  obtain ⟨nodes, hnodes, hnodup, _⟩ := hret
  refine ⟨r.final_total hnodes hnodup, fun h v hv hnot => ?_⟩
  rw [hnodes h] at hnot ⊢
  exact r.final_bounds hnodes hnodup hv hnot

theorem main_balance_coffee : ∃ r : MainRun coffeeInput,
    masterTotal r.graph .bought r.final = masterTotal r.graph .sold r.final := by
  obtain ⟨r⟩ := exists_coffeeRun
  exact ⟨r, (main_balance r (r.returnsDistinctNodes_one rfl)).1⟩

/-- The lines that `verifyState` prints. -/
inductive VerifyError where
  | soldMoreThanBought (id : UInt64) (sold bought : ℚ)
  | boughtMoreThanDesired (id : UInt64) (bought desired : ℚ)
  deriving DecidableEq

/-- What `verifyState` prints for one global id. -/
def verifyNode (g : NetworkGraph H) (h : Fin H) (s : HostState) (gid : GlobalNodeID) :
    List VerifyError :=
  if g.isLocal h gid then
    let data := s.data gid
    (if 0 < data.bought ∧ data.bought + 1 / 100 < data.sold then
      [.soldMoreThanBought data.id data.sold data.bought] else []) ++
    (if g.isOwned h gid ∧ data.desired + 1 / 100 < data.bought then
      [.boughtMoreThanDesired data.id data.bought data.desired] else [])
  else []

/-- How many nodes a host has, with its mirrors. -/
def NetworkGraph.size (g : NetworkGraph H) (h : Fin H) : ℕ :=
  (g.masters h ++ g.mirrors h).toFinset.card

/-- The lines, each with the loop variable. The range has the local ids, and the loop takes them for global
ones. -/
def verifyState (g : NetworkGraph H) (h : Fin H) (s : HostState) :
    List (GlobalNodeID × VerifyError) :=
  (List.range (g.size h)).flatMap fun lid =>
    (verifyNode g h s (UInt64.ofNat lid)).map fun e => (UInt64.ofNat lid, e)

/-- Only global ids that are small enough to be local ids are looked at. -/
theorem mem_verifyState {g : NetworkGraph H} {h : Fin H} {s : HostState} {v : GlobalNodeID}
    {e : VerifyError} :
    (v, e) ∈ verifyState g h s ↔ v.toNat < g.size h ∧ e ∈ verifyNode g h s v := by
  simp only [verifyState, List.mem_flatMap, List.mem_range, List.mem_map, Prod.mk.injEq]
  constructor
  · rintro ⟨lid, hlid, e', he', rfl, rfl⟩
    rw [UInt64.toNat_ofNat']
    exact ⟨(Nat.mod_le _ _).trans_lt hlid, he'⟩
  · rintro ⟨hv, he⟩
    have hlid : UInt64.ofNat v.toNat = v := UInt64.ofNat_toNat
    exact ⟨v.toNat, hv, e, hlid.symm ▸ he, hlid, rfl⟩

/-- The check of a master after `QuiesceGraph`. -/
theorem MainRun.verifyNode_final (r : MainRun i) (hret : ReturnsDistinctNodes r.graph r.picks)
    {h : Fin H} {v : GlobalNodeID} (hv : v ∈ r.graph.masters h) :
    let sales := amountSum .sale ((i.network.edges v).filter fun e =>
      e.edgeDst ∉ influentialNodes r.picks h)
    let data := (r.final h).data v
    verifyNode r.graph h (r.final h) v =
      if v ∉ influentialNodes r.picks h ∧ 0 < data.bought ∧ data.bought + 1 / 100 < sales then
        [.soldMoreThanBought data.id sales data.bought]
      else [] := by
  obtain ⟨nodes, hnodes, hnodup, _⟩ := hret
  intro sales data
  have hlocal : r.graph.isLocal h v = true := r.graph.isLocal_iff.mpr (Or.inl hv)
  unfold verifyNode
  rw [if_pos hlocal]
  by_cases hnot : v ∈ influentialNodes r.picks h
  · obtain ⟨hs, hb, hd⟩ := r.final_cancelled hnodes hnot hlocal
    simp [hs, hb, hd, hnot]
  · have hbounds := r.final_bounds hnodes hnodup hv (hnodes h ▸ hnot)
    rw [← hnodes h] at hbounds
    obtain ⟨_, _, hdesired, hsmore, hsmost⟩ := hbounds
    have hquiet : ¬ (r.graph.isOwned h v = true ∧ data.desired + 1 / 100 < data.bought) := fun hc => by
      linarith [hc.2]
    have hsold (hlt : data.bought + 1 / 100 < data.sold) : data.sold = sales := by
      rcases le_max_iff.mp hsmost with hle | hle
      · linarith
      · exact le_antisymm hle hsmore
    dsimp only
    rw [if_neg hquiet, List.append_nil]
    by_cases hlt : data.bought + 1 / 100 < data.sold
    · rw [hsold hlt]
      simp only [hnot, not_false_eq_true, true_and, data]
    · have hless : ¬ data.bought + 1 / 100 < sales := fun hs => hlt (hs.trans_le hsmore)
      rw [if_neg fun hc => hlt hc.2, if_neg fun hc => hless hc.2.2]

/-- After `QuiesceGraph` the check prints no line about a node that bought more than it desired. It prints
one about a master exactly if the global id of the master is below the number of nodes of the host, and it
buys something but less than it sells to the nodes that were not cancelled. -/
theorem main_verifyState (r : MainRun i) (hret : ReturnsDistinctNodes r.graph r.picks) (h : Fin H) :
    (∀ p ∈ verifyState r.graph h (r.final h), ∃ id sold bought,
      p.2 = .soldMoreThanBought id sold bought) ∧
    ∀ v ∈ r.graph.masters h, ∀ e,
      let sales := amountSum .sale ((i.network.edges v).filter fun e =>
        e.edgeDst ∉ influentialNodes r.picks h)
      let data := (r.final h).data v
      (v, e) ∈ verifyState r.graph h (r.final h) ↔ v.toNat < r.graph.size h ∧
        (v ∉ influentialNodes r.picks h ∧ 0 < data.bought ∧ data.bought + 1 / 100 < sales) ∧
          e = .soldMoreThanBought data.id sales data.bought := by
  constructor
  · rintro ⟨v, e⟩ hp
    obtain ⟨-, he⟩ := mem_verifyState.mp hp
    by_cases hv : v ∈ r.graph.masters h
    · rw [r.verifyNode_final hret hv] at he
      split_ifs at he
      · exact ⟨_, _, _, List.mem_singleton.mp he⟩
      · exact absurd he List.not_mem_nil
    · -- A mirror is not tested for what it desires.
      have howned : ¬ (r.graph.isOwned h v = true ∧
          ((r.final h).data v).desired + 1 / 100 < ((r.final h).data v).bought) := fun hc =>
        hv (r.graph.isOwned_iff.mp hc.1)
      unfold verifyNode at he
      dsimp only at he
      rw [if_neg howned, List.append_nil] at he
      split_ifs at he
      · exact ⟨_, _, _, List.mem_singleton.mp he⟩
      · exact absurd he List.not_mem_nil
      · exact absurd he List.not_mem_nil
  · intro v hv e sales data
    rw [mem_verifyState, r.verifyNode_final hret hv]
    simp [sales, data]

/-- The second host masters node 2, but has no more than two nodes. -/
theorem main_verifyState_coffee : ∃ r : MainRun coffeeInput,
    (2 : GlobalNodeID) ∈ r.graph.masters 1 ∧ ∀ e, (2, e) ∉ verifyState r.graph 1 (r.final 1) := by
  obtain ⟨r⟩ := exists_coffeeRun
  have hret := r.returnsDistinctNodes_one rfl
  have hnode : (2 : GlobalNodeID) ∈ coffeeInput.network.masters 1 := by decide
  have hv : (2 : GlobalNodeID) ∈ r.graph.masters 1 := hnode
  have hsize : coffeeInput.network.size 1 = 2 := by decide
  have hlarge : ¬ (2 : GlobalNodeID).toNat < r.graph.size 1 := fun hlt => by
    have hlt : 2 < coffeeInput.network.size 1 := hlt
    omega
  refine ⟨r, hv, fun e he => ?_⟩
  exact hlarge (((main_verifyState r hret 1).2 2 hv e).mp he).1

end Results
end Wf4
