import GraphLogSketch.Wf4.ProbabilityTotals

/-! The projection of the full graph to the trades in coffee between persons: it keeps both edges of
a trade or neither, which makes it a network graph the later phases can start from. -/
namespace Wf4
variable {H : ℕ}

structure FullNetworkNode where
  id : UInt64
  glbid : UInt64
  frequency : UInt64
  sold : ℚ
  bought : ℚ
  desired : ℚ
  type : Types
  deriving DecidableEq

structure FullNetworkEdge where
  src : UInt64
  dst : UInt64
  type : Types
  topic : UInt64
  amount : ℚ
  weight : ℚ
  deriving DecidableEq

structure FullOutEdge where
  edgeDst : GlobalNodeID
  data : FullNetworkEdge
  deriving DecidableEq

/-- The graph of everything the parsers read. Only a node has out-edges; nothing is said of where
they lead. -/
structure FullNetworkGraph (H : ℕ) where
  masters : Fin H → List GlobalNodeID
  getHostID : GlobalNodeID → Fin H
  getData : GlobalNodeID → FullNetworkNode
  edges : GlobalNodeID → List FullOutEdge
  masters_nodup : ∀ h, (masters h).Nodup
  host_of_master : ∀ {h v}, v ∈ masters h → getHostID v = h
  edge_source : ∀ {v e}, e ∈ edges v → v ∈ masters (getHostID v)

def keepNode (g : FullNetworkGraph H) (node : GlobalNodeID) : Bool :=
  (g.getData node).type = .person

def keepEdgeLessMasters : Bool := false

/-- Only the destination is tested; the source is `KeepNode`'s business. -/
def keepEdge (g : FullNetworkGraph H) (edge : FullNetworkEdge) (dst : GlobalNodeID) : Bool :=
  (edge.type = .purchase ∨ edge.type = .sale) ∧ edge.topic = 8486 ∧ 0 < edge.amount ∧ keepNode g dst

def projectNode (n : FullNetworkNode) : NodeData := ⟨n.id, n.frequency, n.sold, n.bought, n.desired⟩

def projectEdge (e : FullOutEdge) : OutEdge :=
  ⟨e.edgeDst, e.data.src, e.data.dst, e.data.type, e.data.amount, e.data.weight⟩

/-- What is left of the graph on the hosts, before anything is known of its destinations. -/
structure ProjectedGraph (H : ℕ) where
  masters : Fin H → List GlobalNodeID
  getHostID : GlobalNodeID → Fin H
  getData : GlobalNodeID → NodeData
  edges : GlobalNodeID → List OutEdge

def ProjectedGraph.IsNode (g : ProjectedGraph H) (v : GlobalNodeID) : Prop :=
  v ∈ g.masters (g.getHostID v)

/-- The out-edges of a node that are kept. -/
def keptEdges (g : FullNetworkGraph H) (v : GlobalNodeID) : List FullOutEdge :=
  (g.edges v).filter fun e => keepNode g v && keepEdge g e.data e.edgeDst

def projectGraph (g : FullNetworkGraph H) : ProjectedGraph H where
  masters h := (g.masters h).filter fun v =>
    keepNode g v && (keepEdgeLessMasters || !(keptEdges g v).isEmpty)
  getHostID := g.getHostID
  getData v := projectNode (g.getData v)
  edges v := (keptEdges g v).map projectEdge

/-- Topics and amounts of the edges of one kind from `u` to `v`. -/
def tradesBetween (g : FullNetworkGraph H) (t : Types) (u v : GlobalNodeID) : List (UInt64 × ℚ) :=
  ((g.edges u).filter fun e => e.data.type = t ∧ e.edgeDst = v).map fun e =>
    (e.data.topic, e.data.amount)

/-- Sales and purchases match one to one: each sale from `u` to `v` has its own purchase from `v` to
`u` of the same topic and amount. -/
def FullNetworkGraph.Paired (g : FullNetworkGraph H) : Prop :=
  ∀ u v, (tradesBetween g .sale u v).Perm (tradesBetween g .purchase v u)

/-- A sale from `u` and a purchase from `v` that can be two sides of one trade. -/
structure Partners (u v : GlobalNodeID) (e e' : FullOutEdge) : Prop where
  sale : e.data.type = .sale
  buyer : e.edgeDst = v
  purchase : e'.data.type = .purchase
  seller : e'.edgeDst = u
  topic : e.data.topic = e'.data.topic
  amount : e.data.amount = e'.data.amount

variable {g : FullNetworkGraph H} {u v : GlobalNodeID} {e e' : FullOutEdge}

theorem keepEdge_iff {edge : FullNetworkEdge} : keepEdge g edge v = true ↔
    (edge.type = .purchase ∨ edge.type = .sale) ∧ edge.topic = 8486 ∧ 0 < edge.amount ∧
      keepNode g v = true :=
  decide_eq_true_iff

theorem mem_keptEdges : e ∈ keptEdges g v ↔
    e ∈ g.edges v ∧ keepNode g v = true ∧ keepEdge g e.data e.edgeDst = true := by
  rw [keptEdges, List.mem_filter, Bool.and_eq_true]

/-- Whether an edge of a trade is kept is told by the trade alone. -/
def KeepsTrade (g : FullNetworkGraph H) (u v : GlobalNodeID) (topic : UInt64) (amount : ℚ) : Prop :=
  topic = 8486 ∧ 0 < amount ∧ keepNode g u = true ∧ keepNode g v = true

instance (g : FullNetworkGraph H) (u v : GlobalNodeID) (topic : UInt64) (amount : ℚ) :
    Decidable (KeepsTrade g u v topic amount) := by
  unfold KeepsTrade
  infer_instance

theorem keepsTrade_comm {topic : UInt64} {amount : ℚ} :
    KeepsTrade g u v topic amount ↔ KeepsTrade g v u topic amount := by
  simp only [KeepsTrade, and_comm (a := keepNode g u = true)]

theorem keptEdge_iff (ht : e.data.type = .sale ∨ e.data.type = .purchase) :
    e ∈ keptEdges g v ↔
      e ∈ g.edges v ∧ KeepsTrade g v e.edgeDst e.data.topic e.data.amount := by
  rw [mem_keptEdges, keepEdge_iff, KeepsTrade]
  constructor
  · rintro ⟨he, hv, -, htopic, hpos, hdst⟩
    exact ⟨he, htopic, hpos, hv, hdst⟩
  · rintro ⟨he, htopic, hpos, hv, hdst⟩
    exact ⟨he, hv, ht.symm, htopic, hpos, hdst⟩

/-- Both edges of a trade are kept or neither is. -/
theorem partners_kept (hp : Partners u v e e') (he : e ∈ g.edges u) (he' : e' ∈ g.edges v) :
    e ∈ keptEdges g u ↔ e' ∈ keptEdges g v := by
  rw [keptEdge_iff (Or.inl hp.sale), keptEdge_iff (Or.inr hp.purchase), hp.buyer, hp.seller,
    hp.topic, hp.amount, keepsTrade_comm]
  exact ⟨fun h => ⟨he', h.2⟩, fun h => ⟨he, h.2⟩⟩

/-- Matching topics and amounts give each edge of a trade another one at the other end. -/
theorem exists_trade {t t' : Types}
    (h : (tradesBetween g t u v).Perm (tradesBetween g t' v u)) (he : e ∈ g.edges u)
    (ht : e.data.type = t) (hdst : e.edgeDst = v) : ∃ e' ∈ g.edges v, e'.data.type = t' ∧
      e'.edgeDst = u ∧ e'.data.topic = e.data.topic ∧ e'.data.amount = e.data.amount := by
  have htrade : (e.data.topic, e.data.amount) ∈ tradesBetween g t u v :=
    List.mem_map.mpr ⟨e, List.mem_filter.mpr ⟨he, decide_eq_true ⟨ht, hdst⟩⟩, rfl⟩
  obtain ⟨e', hmem, heq⟩ := List.mem_map.mp (h.mem_iff.mp htrade)
  obtain ⟨he', ht'⟩ := List.mem_filter.mp hmem
  obtain ⟨htype, hdst'⟩ := of_decide_eq_true ht'
  exact ⟨e', he', htype, hdst', congrArg Prod.fst heq, congrArg Prod.snd heq⟩

/-- The destination of a kept edge keeps the other edge of the trade. -/
theorem keptEdges_dst_ne_nil (hpair : g.Paired) (he : e ∈ keptEdges g v) :
    keptEdges g e.edgeDst ≠ [] := by
  obtain ⟨hmem, -, hkeep⟩ := mem_keptEdges.mp he
  rcases (keepEdge_iff.mp hkeep).1 with ht | ht
  · obtain ⟨e', he', ht', hdst, htopic, hamount⟩ :=
      exists_trade (hpair e.edgeDst v).symm hmem ht rfl
    have hp : Partners e.edgeDst v e' e := ⟨ht', hdst, ht, rfl, htopic, hamount⟩
    exact List.ne_nil_of_mem ((partners_kept hp he' hmem).mpr he)
  · obtain ⟨e', he', ht', hdst, htopic, hamount⟩ := exists_trade (hpair v e.edgeDst) hmem ht rfl
    have hp : Partners v e.edgeDst e e' := ⟨ht, rfl, ht', hdst, htopic.symm, hamount.symm⟩
    exact List.ne_nil_of_mem ((partners_kept hp hmem he').mp he)

/-- A node is kept exactly if it keeps an edge. -/
theorem projectGraph_isNode_iff : (projectGraph g).IsNode v ↔ keptEdges g v ≠ [] := by
  have hmem : (projectGraph g).IsNode v ↔
      v ∈ g.masters (g.getHostID v) ∧ keepNode g v = true ∧ keptEdges g v ≠ [] := by
    simp [ProjectedGraph.IsNode, projectGraph, keepEdgeLessMasters]
  rw [hmem]
  constructor
  · exact fun h => h.2.2
  · intro h
    obtain ⟨e, he⟩ := List.exists_mem_of_ne_nil _ h
    obtain ⟨hedge, hnode, -⟩ := mem_keptEdges.mp he
    exact ⟨g.edge_source hedge, hnode, h⟩

/-- The amounts kept between two nodes are those of the trades kept between them. -/
theorem amounts_eq {t : Types} (ht : t = .sale ∨ t = .purchase) :
    (((projectGraph g).edges u).filter fun e => e.data.type = t ∧ e.edgeDst = v).map
        (fun e => e.data.amount) =
      ((tradesBetween g t u v).filter fun a => KeepsTrade g u v a.1 a.2).map Prod.snd := by
  show ((((keptEdges g u).map projectEdge).filter _).map _) = _
  rw [keptEdges, tradesBetween, List.filter_map, List.filter_map, List.map_map, List.map_map,
    List.filter_filter, List.filter_filter]
  congr 1
  apply List.filter_congr
  intro e he
  rw [Bool.eq_iff_iff]
  have hkept := keptEdge_iff (g := g) (v := u) (e := e)
  simp only [mem_keptEdges, he, true_and] at hkept
  simp only [projectEdge, Function.comp, Bool.and_eq_true, decide_eq_true_eq]
  constructor
  · rintro ⟨hsel, hkeep⟩
    obtain ⟨htype, hdst⟩ := of_decide_eq_true hsel
    exact ⟨hdst ▸ (hkept (htype ▸ ht)).mp hkeep, htype, hdst⟩
  · rintro ⟨hkeep, htype, hdst⟩
    exact ⟨decide_eq_true ⟨htype, hdst⟩, (hkept (htype ▸ ht)).mpr (hdst ▸ hkeep)⟩

/-- A paired projection leads nowhere outside itself, so it splits over the hosts as a network graph
does. -/
def projectedNetworkGraph (g : FullNetworkGraph H) (hpair : g.Paired) : NetworkGraph H where
  masters := (projectGraph g).masters
  mirrors h := (((projectGraph g).masters h).flatMap fun v =>
    ((projectGraph g).edges v).map OutEdge.edgeDst).filter fun w => g.getHostID w ≠ h
  getHostID := g.getHostID
  edges := (projectGraph g).edges
  masters_nodup h := (g.masters_nodup h).filter _
  host_of_master hv := g.host_of_master (List.mem_filter.mp hv).1
  mirror_mastered := by
    intro h w hw
    obtain ⟨v, -, hw⟩ := List.mem_flatMap.mp (List.mem_filter.mp hw).1
    obtain ⟨e, he, rfl⟩ := List.mem_map.mp hw
    obtain ⟨e', he', rfl⟩ := List.mem_map.mp he
    exact projectGraph_isNode_iff.mpr (keptEdges_dst_ne_nil hpair he')
  mirror_remote hw := of_decide_eq_true (List.mem_filter.mp hw).2
  edge_local := by
    intro h v e hv he
    obtain ⟨e', he', rfl⟩ := List.mem_map.mp he
    have hdst : (projectGraph g).IsNode e'.edgeDst :=
      projectGraph_isNode_iff.mpr (keptEdges_dst_ne_nil hpair he')
    by_cases hh : g.getHostID e'.edgeDst = h
    · exact Or.inl (hh ▸ hdst)
    · refine Or.inr (List.mem_filter.mpr ⟨?_, decide_eq_true hh⟩)
      exact List.mem_flatMap.mpr ⟨v, hv, List.mem_map.mpr ⟨_, he, rfl⟩⟩

/-- The projection of a paired full graph: both edges of a trade stay or neither, sources and
destinations of kept edges are kept nodes, no kept node is without edges, amounts are positive, and
what is left is again a paired network graph. -/
theorem projectGraph_result (g : FullNetworkGraph H) (hpair : g.Paired) :
    (∀ u v e e', Partners u v e e' → e ∈ g.edges u → e' ∈ g.edges v →
        (e ∈ keptEdges g u ↔ e' ∈ keptEdges g v)) ∧
      (∀ v, ∀ e ∈ (projectGraph g).edges v,
        (projectGraph g).IsNode v ∧ (projectGraph g).IsNode e.edgeDst ∧ 0 < e.data.amount) ∧
      (∀ v, (projectGraph g).IsNode v → (projectGraph g).edges v ≠ []) ∧
      ∃ network : NetworkGraph H, network.masters = (projectGraph g).masters ∧
        network.getHostID = (projectGraph g).getHostID ∧
        network.edges = (projectGraph g).edges ∧
        Paired network ∧ PositiveAmounts network ∧ TradesOnly network := by
  have hedge (v : GlobalNodeID) (e : OutEdge) (he : e ∈ (projectGraph g).edges v) :
      (projectGraph g).IsNode v ∧ (projectGraph g).IsNode e.edgeDst ∧ 0 < e.data.amount ∧
        (e.data.type = .sale ∨ e.data.type = .purchase) := by
    obtain ⟨e, hkept, rfl⟩ := List.mem_map.mp he
    obtain ⟨htype, -, hpos, -⟩ := keepEdge_iff.mp (mem_keptEdges.mp hkept).2.2
    exact ⟨projectGraph_isNode_iff.mpr (List.ne_nil_of_mem hkept),
      projectGraph_isNode_iff.mpr (keptEdges_dst_ne_nil hpair hkept), hpos, htype.symm⟩
  refine ⟨fun u v e e' hp he he' => partners_kept hp he he', ?_, ?_,
    projectedNetworkGraph g hpair, rfl, rfl, rfl, ?_, ?_, ?_⟩
  · exact fun v e he => ⟨(hedge v e he).1, (hedge v e he).2.1, (hedge v e he).2.2.1⟩
  · intro v hv hnil
    exact projectGraph_isNode_iff.mp hv (List.map_eq_nil_iff.mp hnil)
  · intro u v _ _
    have hsale := amounts_eq (g := g) (u := u) (v := v) (Or.inl rfl)
    have hpurchase := amounts_eq (g := g) (u := v) (v := u) (Or.inr rfl)
    have hcomm : (fun a : UInt64 × ℚ => decide (KeepsTrade g u v a.1 a.2)) =
        fun a => decide (KeepsTrade g v u a.1 a.2) := by
      funext a
      exact decide_eq_decide.mpr keepsTrade_comm
    show (List.map _ (List.filter _ ((projectGraph g).edges u))).Perm
      (List.map _ (List.filter _ ((projectGraph g).edges v)))
    rw [hsale, hpurchase, hcomm]
    exact ((hpair u v).filter _).map _
  · exact fun v _ e he => (hedge v e he).2.2.1
  · exact fun v _ e he => (hedge v e he).2.2.2

def fullEdge (t : Types) (u v : GlobalNodeID) (topic : UInt64) (a : ℚ) : FullOutEdge :=
  ⟨v, ⟨u, v, t, topic, a, 0⟩⟩

section Coffee
local instance coffeeHosts : NeZero 2 := ⟨two_ne_zero⟩

/-- Person 1 sells coffee to person 2 and to device 3, which it also uses. -/
def coffeeGraph : FullNetworkGraph 2 where
  masters h := if h = 0 then [1, 3] else [2]
  getHostID v := if v = 2 then 1 else 0
  getData v := ⟨v, v, 0, 0, 0, 0, if v = 3 then .device else .person⟩
  edges v :=
    if v = 1 then [fullEdge .sale 1 2 8486 5, fullEdge .sale 1 3 8486 4, fullEdge .uses 1 3 0 0]
    else if v = 2 then [fullEdge .purchase 2 1 8486 5]
    else if v = 3 then [fullEdge .purchase 3 1 8486 4]
    else []
  masters_nodup h := by fin_cases h <;> decide
  host_of_master {h v} hv := by
    fin_cases h <;> simp at hv
    · rcases hv with rfl | rfl <;> decide
    · simp [hv]
  edge_source {v e} he := by
    split_ifs at he with h1 h2 h3
    · simp [h1]
    · simp [h2]
    · simp [h3]
    · exact absurd he List.not_mem_nil

end Coffee

theorem coffeeGraph_paired : coffeeGraph.Paired := by
  intro u v
  by_cases hu1 : u = 1
  · by_cases hv2 : v = 2
    · subst hu1 hv2
      decide
    · by_cases hv3 : v = 3
      · subst hu1 hv3
        decide
      · by_cases hv1 : v = 1
        · subst hu1 hv1
          decide
        · simp [tradesBetween, coffeeGraph, fullEdge, hu1, hv1, hv2, hv3, Ne.symm hv2, Ne.symm hv3]
  · have hsale : tradesBetween coffeeGraph .sale u v = [] := by
      simp only [tradesBetween, coffeeGraph, if_neg hu1]
      split_ifs <;> simp [fullEdge]
    have hpurchase : tradesBetween coffeeGraph .purchase v u = [] := by
      simp only [tradesBetween, coffeeGraph]
      split_ifs <;> simp [fullEdge, Ne.symm hu1]
    rw [hsale, hpurchase]

/-- Only the trade between the persons stays. -/
theorem projectGraph_coffee : ∃ network : NetworkGraph 2,
    network.edges = (projectGraph coffeeGraph).edges ∧ Paired network := by
  obtain ⟨-, -, -, network, -, -, hedges, hpaired, -⟩ :=
    projectGraph_result coffeeGraph coffeeGraph_paired
  exact ⟨network, hedges, hpaired⟩

end Wf4
