import GraphLogSketch.Wf4.MirrorCoherence

/-! The edge probabilities: on both hosts of a trade the amount is divided by what its seller sold in
total, so the two edges of a trade get the same weight and the sales of a seller get weights that sum
to 1. -/
namespace Wf4
variable {H : ℕ} {g : NetworkGraph H}

/-- Every edge is a sale or a purchase. -/
def TradesOnly (g : NetworkGraph H) : Prop :=
  ∀ v, g.IsNode v → ∀ e ∈ g.edges v, e.data.type = .sale ∨ e.data.type = .purchase

def NetworkGraph.nodes (g : NetworkGraph H) : Finset GlobalNodeID :=
  Finset.univ.biUnion fun h => (g.masters h).toFinset

/-- The nodes that sell. -/
def sellers (g : NetworkGraph H) : Finset GlobalNodeID :=
  g.nodes.filter fun v => ∃ e ∈ g.edges v, e.data.type = .sale

/-- The seller of the trade that an edge of `v` belongs to. -/
def seller (v : GlobalNodeID) (e : OutEdge) : GlobalNodeID :=
  if e.data.type = .sale then v else e.edgeDst

/-- The amount as a share of what the seller sells. -/
def share (g : NetworkGraph H) (v : GlobalNodeID) (e : OutEdge) : ℚ :=
  e.data.amount / amountSum .sale (g.edges (seller v e))

def OutEdge.withWeight (e : OutEdge) (x : ℚ) : OutEdge := { e with data := { e.data with weight := x } }

/-- Amounts and weights of the edges of one kind from `u` to `v`. -/
def weightsBetween (g : NetworkGraph H) (t : Types) (u v : GlobalNodeID) : List (ℚ × ℚ) :=
  ((g.edges u).filter fun e => e.data.type = t ∧ e.edgeDst = v).map fun e =>
    (e.data.amount, e.data.weight)

theorem mem_nodes {v : GlobalNodeID} : v ∈ g.nodes ↔ g.IsNode v := by
  simp [NetworkGraph.nodes, NetworkGraph.isNode_iff]

/-- A sum over all hosts and their masters is a sum over the nodes. -/
theorem sum_hosts {M : Type*} [AddCommMonoid M] {order : Fin H → List GlobalNodeID}
    (hp : ∀ h, (order h).Perm (g.masters h)) (f : GlobalNodeID → M) :
    ∑ h, ((order h).map f).sum = ∑ v ∈ g.nodes, f v := by
  rw [NetworkGraph.nodes, Finset.sum_biUnion]
  · apply Finset.sum_congr rfl
    intro h _
    rw [((hp h).map f).sum_eq, List.sum_toFinset f (g.masters_nodup h)]
  · intro h _ k _ hne
    rw [Function.onFun, Finset.disjoint_left]
    intro v hv hk
    exact hne ((g.host_of_master (List.mem_toFinset.mp hv)).symm.trans
      (g.host_of_master (List.mem_toFinset.mp hk)))

theorem amountSum_nonneg {t : Types} {es : List OutEdge} (hpos : ∀ e ∈ es, 0 < e.data.amount) :
    0 ≤ amountSum t es := by
  apply List.sum_nonneg
  intro a ha
  obtain ⟨e, he, rfl⟩ := List.mem_map.mp ha
  exact (hpos e (List.mem_filter.mp he).1).le

theorem le_amountSum {t : Types} {es : List OutEdge} (hpos : ∀ e ∈ es, 0 < e.data.amount)
    {e : OutEdge} (he : e ∈ es) (ht : e.data.type = t) : e.data.amount ≤ amountSum t es := by
  apply List.single_le_sum
  · intro a ha
    obtain ⟨e', he', rfl⟩ := List.mem_map.mp ha
    exact (hpos e' (List.mem_filter.mp he').1).le
  · exact List.mem_map.mpr ⟨e, List.mem_filter.mpr ⟨he, decide_eq_true ht⟩, rfl⟩

theorem amountSum_pos_iff {t : Types} {es : List OutEdge} (hpos : ∀ e ∈ es, 0 < e.data.amount) :
    0 < amountSum t es ↔ ∃ e ∈ es, e.data.type = t := by
  constructor
  · intro h
    by_contra hnone
    have hnil : es.filter (fun e => e.data.type = t) = [] :=
      List.filter_eq_nil_iff.mpr fun e he ht => hnone ⟨e, he, of_decide_eq_true ht⟩
    rw [amountSum, hnil] at h
    exact lt_irrefl 0 h
  · rintro ⟨e, he, ht⟩
    exact (hpos e he).trans_le (le_amountSum hpos he ht)

section Weights
variable {order : Fin H → List GlobalNodeID} {s : Hosts H} {h : Fin H} {u v : GlobalNodeID}
  {e : OutEdge}

/-- Master or mirror, every copy a host has of a node holds the node's sales. -/
theorem fillAndSync_local (hp : ∀ h, (order h).Perm (g.masters h)) (hz : ZeroCounters g s)
    (hpos : PositiveAmounts g) (hv : v ∈ g.masters h ∨ v ∈ g.mirrors h) :
    ((fillAndSync g order s h).data v).sold = amountSum .sale (g.edges v) := by
  rcases hv with hv | hv
  · exact fillAndSync_master hp hz hv .sold
  · have hmirror := fillAndSync_mirror_sold hp hz hv
    have hnonneg := amountSum_nonneg (t := .sale)
      (hpos v (NetworkGraph.isNode_of_master (g.mirror_mastered hv)))
    split_ifs at hmirror with h0
    · exact hmirror
    · exact hmirror.trans (le_antisymm hnonneg (not_lt.mp h0))

/-- A paired purchase has a sale at the other end. -/
theorem seller_sells (hpair : Paired g) (htrade : TradesOnly g) (hv : g.IsNode v)
    (he : e ∈ g.edges v) : g.IsNode (seller v e) ∧
      ∃ e' ∈ g.edges (seller v e), e'.data.type = .sale ∧ e'.data.amount = e.data.amount := by
  rcases htrade v hv e he with hsale | hpurchase
  · rw [seller, if_pos hsale]
    exact ⟨hv, e, he, hsale, rfl⟩
  · rw [seller, if_neg (by simp [hpurchase])]
    have hu := NetworkGraph.edge_isNode hv he
    have hmem : e.data.amount ∈ amountsBetween g .purchase v e.edgeDst :=
      List.mem_map.mpr ⟨e, List.mem_filter.mpr ⟨he, decide_eq_true ⟨hpurchase, rfl⟩⟩, rfl⟩
    obtain ⟨e', he', ha⟩ := List.mem_map.mp ((hpair e.edgeDst v hu hv).mem_iff.mpr hmem)
    obtain ⟨he', ht⟩ := List.mem_filter.mp he'
    exact ⟨hu, e', he', (of_decide_eq_true ht).1, ha⟩

/-- What an edge sells is at most what its seller sells in total. -/
theorem share_bounds (hpair : Paired g) (hpos : PositiveAmounts g) (htrade : TradesOnly g)
    (hv : g.IsNode v) (he : e ∈ g.edges v) : 0 < amountSum .sale (g.edges (seller v e)) ∧
      0 < share g v e ∧ share g v e ≤ 1 := by
  obtain ⟨hs, e', he', ht, ha⟩ := seller_sells hpair htrade hv he
  have hle := le_amountSum (hpos _ hs) he' ht
  have hsum := (amountSum_pos_iff (hpos _ hs)).mpr ⟨e', he', ht⟩
  rw [ha] at hle
  exact ⟨hsum, div_pos (hpos v hv e he) hsum, (div_le_one hsum).mpr hle⟩

/-- Each host computes the share from its own copy of the seller. -/
theorem edgeProbability_eq (hp : ∀ h, (order h).Perm (g.masters h)) (hz : ZeroCounters g s)
    (hpair : Paired g) (hpos : PositiveAmounts g) (htrade : TradesOnly g) (hv : v ∈ g.masters h)
    (he : e ∈ g.edges v) : edgeProbability (fillAndSync g order s h).data v e =
      (e.withWeight (share g v e), share g v e) := by
  have hsum := (share_bounds hpair hpos htrade (NetworkGraph.isNode_of_master hv) he).1
  have hown := fillAndSync_local hp hz hpos (Or.inl hv)
  have hdst := fillAndSync_local hp hz hpos (g.edge_local hv he)
  rcases htrade v (NetworkGraph.isNode_of_master hv) e he with hsale | hpurchase
  · rw [seller, if_pos hsale] at hsum
    rw [share, seller, if_pos hsale, edgeProbability, hown, if_pos ⟨hsale, hsum⟩]
    rfl
  · have hne : e.data.type ≠ .sale := by simp [hpurchase]
    rw [seller, if_neg hne] at hsum
    rw [share, seller, if_neg hne, edgeProbability, if_neg fun hs => hne hs.1, if_pos hpurchase,
      hdst, if_pos hsum]
    rfl

/-- The weight is the only thing that changes. -/
theorem reweighed_edges (hp : ∀ h, (order h).Perm (g.masters h)) (hz : ZeroCounters g s)
    (hpair : Paired g) (hpos : PositiveAmounts g) (htrade : TradesOnly g) (hv : g.IsNode v) :
    (calculateEdgeProbabilities g order s).graph.edges v =
      (g.edges v).map fun e => e.withWeight (share g v e) := by
  rw [calculateEdgeProbabilities_edges g order s hv]
  apply List.map_congr_left
  intro e he
  rw [edgeProbability_eq hp hz hpair hpos htrade hv he]

end Weights

section Totals
variable {u v : GlobalNodeID}

/-- Edges weighted by a factor for their destination, gathered by destination. -/
theorem sum_by_destination (t : Types) (f : GlobalNodeID → ℚ) (N : Finset GlobalNodeID)
    {es : List OutEdge} (hN : ∀ e ∈ es, e.edgeDst ∈ N) :
    ((es.filter fun e => e.data.type = t).map fun e => e.data.amount * f e.edgeDst).sum =
      ∑ u ∈ N, ((es.filter fun e => e.data.type = t ∧ e.edgeDst = u).map fun e =>
        e.data.amount).sum * f u := by
  induction es with
  | nil => simp
  | cons e es ih =>
    have ih := ih fun e' he' => hN e' (List.mem_cons_of_mem e he')
    by_cases ht : e.data.type = t
    · have hu (u : GlobalNodeID) : (((e :: es).filter fun e => e.data.type = t ∧
          e.edgeDst = u).map fun e => e.data.amount).sum * f u =
          (if e.edgeDst = u then e.data.amount * f u else 0) +
            ((es.filter fun e => e.data.type = t ∧ e.edgeDst = u).map fun e =>
              e.data.amount).sum * f u := by
        by_cases hu : e.edgeDst = u
        · simp [ht, hu, add_mul]
        · simp [hu]
      simp only [hu, Finset.sum_add_distrib, ← ih, Finset.sum_ite_eq, hN e List.mem_cons_self,
        if_true]
      simp [ht]
    · simp [ht, ih]

/-- The sales of a node, gathered by buyer. -/
theorem amountSum_eq_sum (t : Types) (hv : g.IsNode v) :
    amountSum t (g.edges v) = ∑ u ∈ g.nodes, (amountsBetween g t v u).sum := by
  have hsum := sum_by_destination t (fun _ => 1) g.nodes fun e he =>
    mem_nodes.mpr (NetworkGraph.edge_isNode hv he)
  simp only [mul_one] at hsum
  exact hsum

theorem amountSum_mul_inv (hpos : PositiveAmounts g) (hv : v ∈ g.nodes) :
    amountSum .sale (g.edges v) * (amountSum .sale (g.edges v))⁻¹ =
      if v ∈ sellers g then 1 else 0 := by
  have hnode := mem_nodes.mp hv
  by_cases hs : v ∈ sellers g
  · have hsum := (amountSum_pos_iff (hpos v hnode)).mpr (Finset.mem_filter.mp hs).2
    rw [if_pos hs, mul_inv_cancel₀ hsum.ne']
  · have hzero : amountSum .sale (g.edges v) = 0 := by
      apply le_antisymm _ (amountSum_nonneg (hpos v hnode))
      by_contra hgt
      exact hs (Finset.mem_filter.mpr
        ⟨hv, (amountSum_pos_iff (hpos v hnode)).mp (not_le.mp hgt)⟩)
    rw [if_neg hs, hzero, zero_mul]

theorem sum_sellers (g : NetworkGraph H) :
    (∑ v ∈ g.nodes, if v ∈ sellers g then (1 : ℚ) else 0) = (sellers g).card := by
  have hsub : sellers g ⊆ g.nodes := Finset.filter_subset _ _
  rw [Finset.sum_ite_mem, Finset.inter_eq_right.mpr hsub, Finset.sum_const, nsmul_eq_mul, mul_one]

/-- The shares of a seller's sales sum to 1. -/
theorem sum_sale_shares (hpos : PositiveAmounts g) (hv : v ∈ g.nodes) :
    (((g.edges v).filter fun e => e.data.type = .sale).map (share g v)).sum =
      if v ∈ sellers g then 1 else 0 := by
  have hshare : ((g.edges v).filter fun e => e.data.type = .sale).map (share g v) =
      ((g.edges v).filter fun e => e.data.type = .sale).map fun e =>
        e.data.amount * (amountSum .sale (g.edges v))⁻¹ := by
    apply List.map_congr_left
    intro e he
    rw [share, seller, if_pos (of_decide_eq_true (List.mem_filter.mp he).2), div_eq_mul_inv]
  rw [hshare, List.sum_map_mul_right]
  exact amountSum_mul_inv hpos hv

/-- So do, over all buyers, the shares of the purchases from a seller. -/
theorem sum_purchase_shares (hpair : Paired g) (hpos : PositiveAmounts g) :
    ∑ v ∈ g.nodes, (((g.edges v).filter fun e => e.data.type = .purchase).map (share g v)).sum =
      (sellers g).card := by
  have hshare (v : GlobalNodeID) (hv : v ∈ g.nodes) :
      (((g.edges v).filter fun e => e.data.type = .purchase).map (share g v)).sum =
        ∑ u ∈ g.nodes, (amountsBetween g .sale u v).sum * (amountSum .sale (g.edges u))⁻¹ := by
    have hnode := mem_nodes.mp hv
    have heq : ((g.edges v).filter fun e => e.data.type = .purchase).map (share g v) =
        ((g.edges v).filter fun e => e.data.type = .purchase).map fun e =>
          e.data.amount * (amountSum .sale (g.edges e.edgeDst))⁻¹ := by
      apply List.map_congr_left
      intro e he
      have ht : e.data.type = .purchase := of_decide_eq_true (List.mem_filter.mp he).2
      rw [share, seller, if_neg (by simp [ht]), div_eq_mul_inv]
    rw [heq, sum_by_destination .purchase (fun u => (amountSum .sale (g.edges u))⁻¹) g.nodes
      fun e he => mem_nodes.mpr (NetworkGraph.edge_isNode hnode he)]
    apply Finset.sum_congr rfl
    intro u hu
    rw [(hpair u v (mem_nodes.mp hu) hnode).sum_eq]
    rfl
  rw [Finset.sum_congr rfl hshare, Finset.sum_comm]
  have hseller (u : GlobalNodeID) (hu : u ∈ g.nodes) :
      ∑ v ∈ g.nodes, (amountsBetween g .sale u v).sum * (amountSum .sale (g.edges u))⁻¹ =
        if u ∈ sellers g then 1 else 0 := by
    rw [← Finset.sum_mul, ← amountSum_eq_sum .sale (mem_nodes.mp hu)]
    exact amountSum_mul_inv hpos hu
  rw [Finset.sum_congr rfl hseller]
  exact sum_sellers g

/-- With sales and purchases only, a sum over the edges is the sum over the two kinds. -/
theorem sum_trades {es : List OutEdge}
    (h : ∀ e ∈ es, e.data.type = .sale ∨ e.data.type = .purchase) (f : OutEdge → ℚ) :
    (es.map f).sum = ((es.filter fun e => e.data.type = .sale).map f).sum +
      ((es.filter fun e => e.data.type = .purchase).map f).sum := by
  induction es with
  | nil => simp
  | cons e es ih =>
    have ih := ih fun e' he' => h e' (List.mem_cons_of_mem e he')
    rcases h e List.mem_cons_self with ht | ht
    · simp [ht, ih, add_assoc]
    · simp [ht, ih]
      ring

/-- Over all nodes as much is bought as is sold. -/
theorem sum_purchases (hpair : Paired g) :
    ∑ v ∈ g.nodes, amountSum .purchase (g.edges v) = ∑ v ∈ g.nodes, amountSum .sale (g.edges v) := by
  have hsplit (t : Types) (v : GlobalNodeID) (hv : v ∈ g.nodes) :=
    amountSum_eq_sum (g := g) t (mem_nodes.mp hv)
  rw [Finset.sum_congr rfl (hsplit .purchase), Finset.sum_congr rfl (hsplit .sale), Finset.sum_comm]
  apply Finset.sum_congr rfl
  intro u hu
  apply Finset.sum_congr rfl
  intro v hv
  exact ((hpair u v (mem_nodes.mp hu) (mem_nodes.mp hv)).sum_eq).symm

end Totals

/-- Weights that are the amounts over one total follow the amounts. -/
theorem weightsBetween_eq {g' : NetworkGraph H} {t : Types} {u v : GlobalNodeID} {total : ℚ}
    (hedges : g'.edges u = (g.edges u).map fun e => e.withWeight (share g u e))
    (hshare : ∀ e : OutEdge, e.data.type = t → e.edgeDst = v →
      share g u e = e.data.amount / total) :
    weightsBetween g' t u v = (amountsBetween g t u v).map fun a => (a, a / total) := by
  rw [weightsBetween, amountsBetween, hedges, List.filter_map, List.map_map, List.map_map]
  apply List.map_congr_left
  intro e he
  obtain ⟨ht, hd⟩ := of_decide_eq_true (List.mem_filter.mp he).2
  show (e.data.amount, share g u e) = _
  rw [hshare e ht hd]
  rfl

section Reported
variable {order : Fin H → List GlobalNodeID} {s : Hosts H}

/-- The sales of each seller weigh 1, and so do the purchases from it. -/
theorem totalEdgeWeights_eq (hp : ∀ h, (order h).Perm (g.masters h)) (hz : ZeroCounters g s)
    (hpair : Paired g) (hpos : PositiveAmounts g) (htrade : TradesOnly g) :
    (calculateEdgeProbabilities g order s).totalEdgeWeights = 2 * (sellers g).card := by
  have htotal : (calculateEdgeProbabilities g order s).totalEdgeWeights =
      ∑ h, ((order h).map fun v => ((g.edges v).map (share g v)).sum).sum := by
    show ∑ h, ((order h).map fun v => ((g.edges v).map fun e => _).sum).sum = _
    apply Finset.sum_congr rfl
    intro h _
    congr 1
    apply List.map_congr_left
    intro v hv
    congr 1
    apply List.map_congr_left
    intro e he
    rw [edgeProbability_eq hp hz hpair hpos htrade ((hp h).mem_iff.mp hv) he]
  have hsplit (v : GlobalNodeID) (hv : v ∈ g.nodes) :=
    sum_trades (htrade v (mem_nodes.mp hv)) (share g v)
  rw [htotal, sum_hosts hp, Finset.sum_congr rfl hsplit, Finset.sum_add_distrib,
    sum_purchase_shares hpair hpos, Finset.sum_congr rfl fun v hv => sum_sale_shares hpos hv,
    sum_sellers, two_mul]

/-- Sales and purchases are both added. -/
theorem totalSales_eq (hp : ∀ h, (order h).Perm (g.masters h)) (hz : ZeroCounters g s)
    (hpair : Paired g) (htrade : TradesOnly g) :
    (calculateEdgeProbabilities g order s).totalSales =
      2 * ∑ h, ((g.masters h).map fun v => ((fillAndSync g order s h).data v).sold).sum := by
  have hsplit (v : GlobalNodeID) (hv : v ∈ g.nodes) :=
    sum_trades (htrade v (mem_nodes.mp hv)) fun e => e.data.amount
  have hsold : ∑ h, ((g.masters h).map fun v => ((fillAndSync g order s h).data v).sold).sum =
      ∑ h, ((g.masters h).map fun v => amountSum .sale (g.edges v)).sum := by
    apply Finset.sum_congr rfl
    intro h _
    congr 1
    apply List.map_congr_left
    intro v hv
    exact fillAndSync_master hp hz hv .sold
  show ∑ h, ((order h).map fun v => ((g.edges v).map fun e => e.data.amount).sum).sum = _
  rw [hsold, sum_hosts hp, sum_hosts fun _ => .rfl, Finset.sum_congr rfl hsplit,
    Finset.sum_add_distrib, two_mul]
  exact congrArg _ (sum_purchases hpair)

end Reported

/-- After `CalculateEdgeProbabilities` every sale weighs its share of its seller's sales, its paired
purchase weighs the same, weights lie in `(0, 1]`, a seller's sales weigh 1 together, and the totals
are twice the number of sellers and twice what the masters sold. -/
theorem calculateEdgeProbabilities_result (g : NetworkGraph H) (order : Fin H → List GlobalNodeID)
    (s : Hosts H) (hp : ∀ h, (order h).Perm (g.masters h)) (hz : ZeroCounters g s)
    (hpair : Paired g) (hpos : PositiveAmounts g) (htrade : TradesOnly g) :
    let p := calculateEdgeProbabilities g order s
    (∀ v, g.IsNode v → p.graph.edges v = (g.edges v).map fun e => e.withWeight (share g v e)) ∧
      (∀ v, g.IsNode v → ∀ e ∈ p.graph.edges v, e.data.type = .sale →
        e.data.weight = e.data.amount / amountSum .sale (g.edges v)) ∧
      (∀ u v, g.IsNode u → g.IsNode v →
        (weightsBetween p.graph .sale u v).Perm (weightsBetween p.graph .purchase v u)) ∧
      (∀ v, g.IsNode v → ∀ e ∈ p.graph.edges v, 0 < e.data.weight ∧ e.data.weight ≤ 1) ∧
      (∀ v ∈ sellers g,
        (((p.graph.edges v).filter fun e => e.data.type = .sale).map fun e =>
          e.data.weight).sum = 1) ∧
      p.totalEdgeWeights = 2 * (sellers g).card ∧
      p.totalSales = 2 * ∑ h, ((g.masters h).map fun v => ((p.hosts h).data v).sold).sum := by
  intro p
  have hedges (v : GlobalNodeID) (hv : g.IsNode v) : p.graph.edges v =
      (g.edges v).map fun e => e.withWeight (share g v e) :=
    reweighed_edges hp hz hpair hpos htrade hv
  refine ⟨hedges, ?_, ?_, ?_, ?_, ?_, ?_⟩
  · intro v hv e he ht
    rw [hedges v hv] at he
    obtain ⟨e, _, rfl⟩ := List.mem_map.mp he
    have ht : e.data.type = .sale := ht
    show share g v e = e.data.amount / _
    rw [share, seller, if_pos ht]
  · intro u v hu hv
    have hsale : weightsBetween p.graph .sale u v = (amountsBetween g .sale u v).map fun a =>
        (a, a / amountSum .sale (g.edges u)) :=
      weightsBetween_eq (hedges u hu) fun e ht _ => by rw [share, seller, if_pos ht]
    have hpurchase : weightsBetween p.graph .purchase v u =
        (amountsBetween g .purchase v u).map fun a => (a, a / amountSum .sale (g.edges u)) :=
      weightsBetween_eq (hedges v hv) fun e ht hd => by
        rw [share, seller, if_neg (by simp [ht]), hd]
    rw [hsale, hpurchase]
    exact (hpair u v hu hv).map _
  · intro v hv e he
    rw [hedges v hv] at he
    obtain ⟨e, hmem, rfl⟩ := List.mem_map.mp he
    exact (share_bounds hpair hpos htrade hv hmem).2
  · intro v hv
    have hnode := (Finset.mem_filter.mp hv).1
    have hsum := sum_sale_shares hpos hnode
    rw [if_pos hv] at hsum
    rw [hedges v (mem_nodes.mp hnode), List.filter_map, List.map_map]
    exact hsum
  · exact totalEdgeWeights_eq hp hz hpair hpos htrade
  · exact totalSales_eq hp hz hpair htrade

theorem chainGraph_trades : TradesOnly chainGraph := by
  intro v hv
  rcases chainGraph_node hv with rfl | rfl | rfl <;> simp [chainGraph, tradeEdge]

/-- In the chain nodes 1 and 2 sell, so the weights total 4. -/
theorem calculateEdgeProbabilities_chain :
    (calculateEdgeProbabilities chainGraph chainGraph.masters fun _ =>
      HostState.zero).totalEdgeWeights = 2 * (sellers chainGraph).card :=
  (calculateEdgeProbabilities_result chainGraph chainGraph.masters (fun _ => HostState.zero)
    (fun _ => .rfl) (zero_zeroCounters _) chainGraph_paired chainGraph_positive
    chainGraph_trades).2.2.2.2.2.1

end Wf4
