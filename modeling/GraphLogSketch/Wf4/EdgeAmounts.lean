import GraphLogSketch.Wf4.NodeValues
import GraphLogSketch.Wf4.QuiesceAttempt

/-! A call of `TryQuiesceNode` that runs alone, with the edge records of the graph. The record of an
edge is raised in a copy that goes out of scope. -/
namespace Wf4
variable {H : ℕ}

/-- A host with the edge records of the graph. -/
structure Ledger (H : ℕ) where
  host : HostState
  remoteEdges : RemoteEdges H
  edges : GlobalNodeID → List OutEdge

namespace Ledger

/-- The body of the loop over the edges, past the check of what is needed: the amount still needed,
the local `edge_data` and the state. -/
def tryEdge (g : NetworkGraph H) (h : Fin H) (node : GlobalNodeID) (inEdge : OutEdge) (needed : ℚ)
    (s : Ledger H) : ℚ × NetworkEdge × Ledger H :=
  let edgeData := inEdge.data
  let seller := inEdge.edgeDst
  let tradeDelta := min needed (s.host.data seller).surplus
  if edgeData.type ≠ .purchase then (needed, edgeData, s)
  else if tradeDelta ≤ 0 then (needed, edgeData, s)
  else
    let sellerSold := (s.host.data seller).sold + tradeDelta
    let host := s.host.modify seller (NodeData.atomicAdd .sold tradeDelta)
    if (host.data seller).bought < sellerSold then
      (needed, edgeData,
        { s with host := host.modify seller (NodeData.atomicSubtract .sold tradeDelta) })
    else if g.isOwned h seller then
      (needed - tradeDelta, { edgeData with amount := edgeData.amount + tradeDelta },
        { s with
          host := ((host.modify node (NodeData.atomicAdd .bought tradeDelta)).mark .bought
            node).mark .sold seller })
    else
      (needed - tradeDelta, edgeData,
        { s with
          host := host
          remoteEdges := RemoteEdges.emplace s.remoteEdges (g.getHostID seller)
            ⟨node, seller, tradeDelta⟩ })

/-- The loop. The local copy ends with the iteration, and no iteration stores an edge. -/
def tryEdges (g : NetworkGraph H) (h : Fin H) (node : GlobalNodeID) :
    List OutEdge → ℚ → Ledger H → Ledger H
  | [], _, s => s
  | inEdge :: rest, needed, s =>
    if needed ≤ 0 then s
    else
      let r := tryEdge g h node inEdge needed s
      tryEdges g h node rest r.1 r.2.2

def tryQuiesceNode (g : NetworkGraph H) (h : Fin H) (node : GlobalNodeID) (s : Ledger H) :
    Ledger H :=
  tryEdges g h node (s.edges node) ((s.host.data node).desired - (s.host.data node).bought) s

/-- The purchase edges of a node were raised by what the node bought, and the other edges kept their
records. -/
structure ExplainsBought (node : GlobalNodeID) (s s' : Ledger H) : Prop where
  raised : amountSum .purchase (s'.edges node) - amountSum .purchase (s.edges node) =
    (s'.host.data node).bought - (s.host.data node).bought
  others : ∀ v ≠ node, s'.edges v = s.edges v
  kinds : (s'.edges node).filter (fun e => e.data.type ≠ .purchase) =
    (s.edges node).filter (fun e => e.data.type ≠ .purchase)

section Edge
variable {g : NetworkGraph H} {h : Fin H} {node : GlobalNodeID} {s : Ledger H} {e : OutEdge}
  {es : List OutEdge} {needed : ℚ}

theorem tryEdge_edges (g : NetworkGraph H) (h : Fin H) (node : GlobalNodeID) (e : OutEdge)
    (needed : ℚ) (s : Ledger H) : (tryEdge g h node e needed s).2.2.edges = s.edges := by
  unfold tryEdge
  dsimp only
  split_ifs <;> rfl

/-- An edge that is no purchase or whose seller has no surplus is passed over. -/
theorem tryEdge_skip (hskip : e.data.type = .purchase → (s.host.data e.edgeDst).surplus ≤ 0) :
    tryEdge g h node e needed s = (needed, e.data, s) := by
  unfold tryEdge
  dsimp only
  by_cases htype : e.data.type = .purchase
  · rw [if_neg (not_not.mpr htype), if_pos (min_le_of_right_le (hskip htype))]
  · rw [if_pos htype]

/-- A surplus is sold without a rollback; what a seller of the host sells is bought. -/
theorem tryEdge_trade (node : GlobalNodeID) (htype : e.data.type = .purchase) (howned : e.edgeDst ∈ g.masters h)
    (hneeded : 0 < needed) (hsurplus : 0 < (s.host.data e.edgeDst).surplus) :
    ((tryEdge g h node e needed s).2.2.host.data node).bought = (s.host.data node).bought +
      min needed (s.host.data e.edgeDst).surplus := by
  have hpos : 0 < min needed (s.host.data e.edgeDst).surplus := lt_min hneeded hsurplus
  have hfits : ¬ ((s.host.modify e.edgeDst (NodeData.atomicAdd .sold
      (min needed (s.host.data e.edgeDst).surplus))).data e.edgeDst).bought <
        (s.host.data e.edgeDst).sold + min needed (s.host.data e.edgeDst).surplus := by
    have hle := min_le_right needed (s.host.data e.edgeDst).surplus
    unfold NodeData.surplus at hle
    rw [modify_sold_bought, not_lt, NodeData.surplus]
    linarith
  unfold tryEdge
  dsimp only
  rw [if_neg (not_not.mpr htype), if_neg (not_le.mpr hpos), if_neg hfits,
    if_pos (g.isOwned_iff.mpr howned)]
  show ((HostState.modify _ node _).data node).bought = _
  rw [modify_bought_bought, modify_sold_bought, if_pos rfl]

/-- Either an edge is passed over or it raises what the node bought. -/
theorem tryEdge_bought_le (node : GlobalNodeID) (howned : e.data.type = .purchase → e.edgeDst ∈ g.masters h)
    (hneeded : 0 < needed) :
    (s.host.data node).bought ≤ ((tryEdge g h node e needed s).2.2.host.data node).bought := by
  by_cases htrade : e.data.type = .purchase ∧ 0 < (s.host.data e.edgeDst).surplus
  · rw [tryEdge_trade node htrade.1 (howned htrade.1) hneeded htrade.2]
    have hpos := lt_min hneeded htrade.2
    linarith
  · rw [tryEdge_skip fun htype => not_lt.mp fun hsurplus => htrade ⟨htype, hsurplus⟩]

theorem tryEdges_edges (g : NetworkGraph H) (h : Fin H) (node : GlobalNodeID) (es : List OutEdge)
    (needed : ℚ) (s : Ledger H) : (tryEdges g h node es needed s).edges = s.edges := by
  induction es generalizing needed s with
  | nil => rfl
  | cons e es ih =>
    rw [tryEdges]
    split_ifs
    · rfl
    · rw [ih, tryEdge_edges]

theorem tryEdges_skip (hskip : needed ≤ 0 ∨
      ∀ e ∈ es, e.data.type = .purchase → (s.host.data e.edgeDst).surplus ≤ 0) :
    tryEdges g h node es needed s = s := by
  induction es with
  | nil => rfl
  | cons e es ih =>
    rw [tryEdges]
    split_ifs with hneeded
    · rfl
    · have hrest := hskip.resolve_left hneeded
      rw [tryEdge_skip (hrest e List.mem_cons_self)]
      exact ih (Or.inr fun d hd => hrest d (List.mem_cons_of_mem e hd))

theorem tryEdges_bought_le (node : GlobalNodeID) (needed : ℚ) (s : Ledger H)
    (howned : ∀ e ∈ es, e.data.type = .purchase → e.edgeDst ∈ g.masters h) :
    (s.host.data node).bought ≤ ((tryEdges g h node es needed s).host.data node).bought := by
  induction es generalizing needed s with
  | nil => exact le_rfl
  | cons e es ih =>
    rw [tryEdges]
    split_ifs with hneeded
    · exact le_rfl
    · exact (tryEdge_bought_le node (howned e List.mem_cons_self) (not_le.mp hneeded)).trans
        (ih _ _ fun d hd => howned d (List.mem_cons_of_mem e hd))

/-- A node that needs something buys from the first seller with a surplus. -/
theorem tryEdges_bought_lt (node : GlobalNodeID)
    (howned : ∀ e ∈ es, e.data.type = .purchase → e.edgeDst ∈ g.masters h) (hneeded : 0 < needed)
    (hseller : ∃ e ∈ es, e.data.type = .purchase ∧ 0 < (s.host.data e.edgeDst).surplus) :
    (s.host.data node).bought < ((tryEdges g h node es needed s).host.data node).bought := by
  induction es with
  | nil =>
    obtain ⟨e, he, -⟩ := hseller
    exact absurd he List.not_mem_nil
  | cons e es ih =>
    have hrest (d : OutEdge) (hd : d ∈ es) := howned d (List.mem_cons_of_mem e hd)
    rw [tryEdges, if_neg (not_le.mpr hneeded)]
    by_cases htrade : e.data.type = .purchase ∧ 0 < (s.host.data e.edgeDst).surplus
    · have hraise := tryEdge_trade node htrade.1 (howned e List.mem_cons_self htrade.1) hneeded
        htrade.2
      have hpos := lt_min hneeded htrade.2
      have hmono := tryEdges_bought_le node (tryEdge g h node e needed s).1
        (tryEdge g h node e needed s).2.2 hrest
      dsimp only
      linarith
    · rw [tryEdge_skip fun htype => not_lt.mp fun hsurplus => htrade ⟨htype, hsurplus⟩]
      obtain ⟨d, hd, hsell⟩ := hseller
      rcases List.mem_cons.mp hd with rfl | hd
      · exact absurd hsell htrade
      · exact ih hrest ⟨d, hd, hsell⟩

/-- The steps of a call that runs alone do what an iteration does. -/
theorem tryEdge_run {t : Trading H} (hneeded : ¬ needed ≤ 0)
    (hbuyer : t.buyers node = .running needed (e :: es) .idle) (hhost : t.host = s.host)
    (hremote : t.remoteEdges = s.remoteEdges) :
    ∃ t', Threads.Run [node] (Wf4.tryQuiesceNode g h) t t' ∧
      t'.buyers node = .running (tryEdge g h node e needed s).1 es .idle ∧
      t'.host = (tryEdge g h node e needed s).2.2.host ∧
      t'.remoteEdges = (tryEdge g h node e needed s).2.2.remoteEdges := by
  have hmove (t : Trading H) : Threads.Step [node] (Wf4.tryQuiesceNode g h) t
      (Wf4.tryQuiesceNode g h node t) := ⟨node, List.mem_singleton_self node, rfl⟩
  have hset (t : Trading H) (b : Buyer) : (t.setBuyer node b).buyers node = b :=
    Function.update_self ..
  have hfirst : Wf4.tryQuiesceNode g h node t =
      t.setBuyer node (nextEdge s.host.data needed (e :: es)) := by
    rw [Wf4.tryQuiesceNode, hbuyer, hhost]
  by_cases hskip : e.data.type = .purchase → (s.host.data e.edgeDst).surplus ≤ 0
  · refine ⟨_, .single (hmove t), ?_⟩
    have hnext : nextEdge s.host.data needed (e :: es) = .running needed es .idle := by
      rw [nextEdge, if_neg hneeded]
      by_cases htype : e.data.type = .purchase
      · rw [if_neg (not_not.mpr htype), if_pos (min_le_of_right_le (hskip htype))]
      · rw [if_pos htype]
    rw [tryEdge_skip hskip, hfirst, hnext]
    exact ⟨hset .., hhost, hremote⟩
  · rw [Classical.not_imp] at hskip
    obtain ⟨htype, hsurplus⟩ := hskip
    obtain ⟨delta, hdelta⟩ : ∃ delta, delta = min needed (s.host.data e.edgeDst).surplus := ⟨_, rfl⟩
    have hpos : ¬ delta ≤ 0 := by
      rw [hdelta, min_le_iff, not_or]
      exact ⟨hneeded, hsurplus⟩
    have hnext : nextEdge s.host.data needed (e :: es) =
        .running needed es (.reserving e.edgeDst delta) := by
      rw [nextEdge, if_neg hneeded, if_neg (not_not.mpr htype), ← hdelta, if_neg hpos]
    rw [hnext] at hfirst
    have hsecond : Wf4.tryQuiesceNode g h node (Wf4.tryQuiesceNode g h node t) =
        { t.setBuyer node (.running needed es (.comparing e.edgeDst delta
            ((s.host.data e.edgeDst).sold + delta))) with
          host := s.host.modify e.edgeDst (NodeData.atomicAdd .sold delta) } := by
      rw [hfirst, Wf4.tryQuiesceNode, hset]
      simp only [attempt, Trading.setBuyer, Function.update_idem, hhost]
    -- the comparison decides between the rollback and the commit
    have hrun : Threads.Run [node] (Wf4.tryQuiesceNode g h) t (Wf4.tryQuiesceNode g h node
        (Wf4.tryQuiesceNode g h node (Wf4.tryQuiesceNode g h node
          (Wf4.tryQuiesceNode g h node t)))) :=
      .head (hmove _) (.head (hmove _) (.head (hmove _) (.single (hmove _))))
    refine ⟨_, hrun, ?_⟩
    rw [hsecond]
    unfold tryEdge
    dsimp only
    rw [← hdelta, if_neg (not_not.mpr htype), if_neg hpos, modify_sold_bought]
    split_ifs with hover howned
    · simp [Wf4.tryQuiesceNode, attempt, Trading.setBuyer, hover, hremote]
    · simp [Wf4.tryQuiesceNode, attempt, commitTrade, Trading.setBuyer, hover, howned, hremote]
    · simp [Wf4.tryQuiesceNode, attempt, commitTrade, Trading.setBuyer, hover, howned, hremote]

/-- A step that ends the loop changes nothing else. -/
theorem nextEdge_finished_run {t : Trading H} (hnext : nextEdge t.host.data needed es = .finished)
    (hbuyer : t.buyers node = .running needed es .idle) :
    ∃ t', Threads.Run [node] (Wf4.tryQuiesceNode g h) t t' ∧ t'.buyers node = .finished ∧
      t'.host = t.host ∧ t'.remoteEdges = t.remoteEdges := by
  refine ⟨_, .single ⟨node, List.mem_singleton_self node, rfl⟩, ?_⟩
  rw [Wf4.tryQuiesceNode, hbuyer]
  show Function.update t.buyers node (nextEdge t.host.data needed es) node = _ ∧ _
  rw [Function.update_self]
  exact ⟨hnext, rfl, rfl⟩

theorem tryEdges_run (g : NetworkGraph H) (h : Fin H) {t : Trading H} (hbuyer : t.buyers node = .running needed es .idle)
    (hhost : t.host = s.host) (hremote : t.remoteEdges = s.remoteEdges) :
    ∃ t', Threads.Run [node] (Wf4.tryQuiesceNode g h) t t' ∧ t'.buyers node = .finished ∧
      t'.host = (tryEdges g h node es needed s).host ∧
      t'.remoteEdges = (tryEdges g h node es needed s).remoteEdges := by
  induction es generalizing needed s t with
  | nil =>
    rw [tryEdges, ← hhost, ← hremote]
    exact nextEdge_finished_run rfl hbuyer
  | cons e es ih =>
    rw [tryEdges]
    split_ifs with hneeded
    · rw [← hhost, ← hremote]
      have hstop : nextEdge t.host.data needed (e :: es) = .finished := by
        rw [nextEdge, if_pos hneeded]
      exact nextEdge_finished_run hstop hbuyer
    · obtain ⟨t₁, hrun₁, hbuyer₁, hhost₁, hremote₁⟩ :=
        tryEdge_run (g := g) (h := h) hneeded hbuyer hhost hremote
      obtain ⟨t₂, hrun₂, hend⟩ := ih hbuyer₁ hhost₁ hremote₁
      exact ⟨t₂, hrun₁.trans hrun₂, hend⟩

/-- The call is a run of the thread that processes the node. -/
theorem tryQuiesceNode_run (g : NetworkGraph H) (h : Fin H) (node : GlobalNodeID) (t : Trading H)
    (hbuyer : t.buyers node = .waiting) :
    let s' := tryQuiesceNode g h node ⟨t.host, t.remoteEdges, g.edges⟩
    ∃ t', Threads.Run [node] (Wf4.tryQuiesceNode g h) t t' ∧ t'.buyers node = .finished ∧
      t'.host = s'.host ∧ t'.remoteEdges = s'.remoteEdges := by
  intro s'
  have hstart : (Wf4.tryQuiesceNode g h node t).buyers node = .running
      ((t.host.data node).desired - (t.host.data node).bought) (g.edges node) .idle := by
    rw [Wf4.tryQuiesceNode, hbuyer]
    exact Function.update_self ..
  have hkept : (Wf4.tryQuiesceNode g h node t).host = t.host ∧
      (Wf4.tryQuiesceNode g h node t).remoteEdges = t.remoteEdges := by
    rw [Wf4.tryQuiesceNode, hbuyer]
    exact ⟨rfl, rfl⟩
  obtain ⟨t', hrun, hend⟩ := tryEdges_run g h (s := ⟨t.host, t.remoteEdges, g.edges⟩) hstart
    hkept.1 hkept.2
  exact ⟨t', .head ⟨node, List.mem_singleton_self node, rfl⟩ hrun, hend⟩

end Edge

/-- With sellers of the same host only, the edge records explain what was bought in a call exactly when
nothing is bought: the node needs nothing, or no seller has a surplus. -/
theorem tryQuiesceNode_explains_iff (g : NetworkGraph H) (h : Fin H) (node : GlobalNodeID)
    (s : Ledger H)
    (howned : ∀ e ∈ s.edges node, e.data.type = .purchase → e.edgeDst ∈ g.masters h) :
    ExplainsBought node s (tryQuiesceNode g h node s) ↔
      (s.host.data node).desired - (s.host.data node).bought ≤ 0 ∨
        ∀ e ∈ s.edges node, e.data.type = .purchase →
          (s.host.data e.edgeDst).bought - (s.host.data e.edgeDst).sold ≤ 0 := by
  constructor
  · intro hexplains
    have hsame := hexplains.raised
    rw [tryQuiesceNode, tryEdges_edges, sub_self] at hsame
    by_contra hnot
    rw [not_or, not_le] at hnot
    obtain ⟨hneeded, hsellers⟩ := hnot
    have hseller : ∃ e ∈ s.edges node, e.data.type = .purchase ∧
        0 < (s.host.data e.edgeDst).surplus := by
      by_contra hnone
      exact hsellers fun e he htype => not_lt.mp fun hpos => hnone ⟨e, he, htype, hpos⟩
    have hraised := tryEdges_bought_lt node howned hneeded hseller
    linarith
  · intro hskip
    have hcall : tryQuiesceNode g h node s = s := tryEdges_skip hskip
    rw [hcall]
    exact ⟨by rw [sub_self, sub_self], fun v _ => rfl, rfl⟩

section Shop
local instance oneHost : NeZero 1 := ⟨one_ne_zero⟩

/-- Node 2 buys from node 1 on the same host. -/
def shopGraph : NetworkGraph 1 where
  masters _ := [1, 2]
  mirrors _ := []
  getHostID _ := 0
  edges v :=
    if v = 1 then [tradeEdge .sale 1 2 3] else if v = 2 then [tradeEdge .purchase 2 1 3] else []
  masters_nodup _ := by decide
  host_of_master _ := Subsingleton.elim ..
  mirror_mastered hv := absurd hv List.not_mem_nil
  mirror_remote hv := absurd hv List.not_mem_nil
  edge_local {h v e} hv he := by
    simp at hv
    rcases hv with rfl | rfl <;> simp [tradeEdge] at he <;> simp [he]

end Shop

/-- Node 1 has a surplus of 2; node 2 has bought 3 of what it desires. -/
def shop (desired : ℚ) : Ledger 1 where
  host := ⟨fun v =>
    if v = 1 then ⟨1, 0, 3, 5, 0⟩ else if v = 2 then ⟨2, 0, 0, 3, desired⟩ else .zero,
    fun _ _ => false⟩
  remoteEdges := fun _ => TradeSet.empty
  edges := shopGraph.edges

theorem shop_owned (desired : ℚ) : ∀ e ∈ (shop desired).edges 2, e.data.type = .purchase →
    e.edgeDst ∈ shopGraph.masters 0 := by
  intro e he _
  obtain rfl := List.mem_singleton.mp he
  decide

theorem tryQuiesceNode_explains_shop :
    ExplainsBought 2 (shop 3) (tryQuiesceNode shopGraph 0 2 (shop 3)) :=
  (tryQuiesceNode_explains_iff shopGraph 0 2 (shop 3) (shop_owned 3)).mpr (Or.inl (sub_nonpos.mpr le_rfl))

/-- Node 2 buys 1 more, and the record of its edge still says 3. -/
theorem tryQuiesceNode_unexplained :
    let s' := tryQuiesceNode shopGraph 0 2 (shop 4)
    (s'.host.data 2).bought = 4 ∧ amountSum .purchase (s'.edges 2) = 3 ∧
      ¬ ExplainsBought 2 (shop 4) s' := by
  intro s'
  have hbought : (s'.host.data 2).bought = 4 := by decide +kernel
  have hamount : amountSum .purchase (s'.edges 2) = 3 := by decide +kernel
  refine ⟨hbought, hamount, fun hexplains => ?_⟩
  have hraised := hexplains.raised
  have hbefore : ((shop 4).host.data 2).bought = 3 := rfl
  have hold : amountSum .purchase ((shop 4).edges 2) = 3 := by decide +kernel
  rw [hbought, hamount, hbefore, hold] at hraised
  norm_num at hraised

end Ledger

end Wf4
