import GraphLogSketch.Wf4.Cancel

/-! After `CancelNodes` the masters hold the totals of the graph without the cancelled nodes. The
charges against a node, collected over all hosts, are the amounts of its own edges to the cancelled
nodes, because every sale is paired with a purchase. -/
namespace Wf4
variable {H : ℕ}

theorem foldl_applyCharge_owned (cs : List ℚ) (x : ℚ) :
    cs.foldl (applyCharge true) x = x - cs.sum := by
  induction cs generalizing x with
  | nil => simp
  | cons a cs ih =>
    rw [List.foldl_cons, ih, List.sum_cons, applyCharge, if_pos rfl]
    ring

/-- A mirror at or below zero only collects the charges. -/
theorem foldl_applyCharge_nonpos {cs : List ℚ} (hc : ∀ a ∈ cs, 0 < a) {x : ℚ} (hx : x ≤ 0) :
    cs.foldl (applyCharge false) x = x - cs.sum := by
  induction cs generalizing x with
  | nil => simp
  | cons a cs ih =>
    have ha := hc a List.mem_cons_self
    have hstep : applyCharge false x a = x - a := by simp [applyCharge, min_eq_left hx]
    rw [List.foldl_cons, hstep, ih (fun b hb => hc b (List.mem_cons_of_mem _ hb)) (by linarith),
      List.sum_cons]
    ring

/-- The first charge on a nonnegative mirror drops its old value. -/
theorem foldl_applyCharge_mirror {cs : List ℚ} (hc : ∀ a ∈ cs, 0 < a) (hne : cs ≠ []) {x : ℚ}
    (hx : 0 ≤ x) : cs.foldl (applyCharge false) x = -cs.sum := by
  obtain ⟨a, cs, rfl⟩ := List.exists_cons_of_ne_nil hne
  have ha := hc a List.mem_cons_self
  have hstep : applyCharge false x a = -a := by simp [applyCharge, min_eq_right hx]
  rw [List.foldl_cons, hstep, List.sum_cons,
    foldl_applyCharge_nonpos (fun b hb => hc b (List.mem_cons_of_mem _ hb)) (by linarith)]
  ring

section Charges
variable {g : NetworkGraph H} {h : Fin H} {c : Counter} {u v : GlobalNodeID}

theorem mem_charges {a : ℚ} (ha : a ∈ charges g c u v) :
    ∃ e ∈ g.edges u, chargedCounter e.data.type = some c ∧ e.edgeDst = v ∧ a = e.data.amount := by
  obtain ⟨e, he, rfl⟩ := List.mem_map.mp ha
  obtain ⟨he, hp⟩ := List.mem_filter.mp he
  obtain ⟨ht, hd⟩ := of_decide_eq_true hp
  exact ⟨e, he, ht, hd, rfl⟩

theorem mem_hostCharges {a : ℚ} {order : List GlobalNodeID} (ha : a ∈ hostCharges g h c v order) :
    ∃ u ∈ order, u ∈ g.masters h ∧ a ∈ charges g c u v := by
  obtain ⟨u, hu, ha⟩ := List.mem_flatMap.mp ha
  split_ifs at ha with ho
  · exact ⟨u, hu, g.isOwned_iff.mp ho, ha⟩
  · simp at ha

/-- A host charges only nodes it has a copy of. -/
theorem hostCharges_local {order : List GlobalNodeID} (hne : hostCharges g h c v order ≠ []) :
    v ∈ g.masters h ∨ v ∈ g.mirrors h := by
  obtain ⟨a, cs, hcs⟩ := List.exists_cons_of_ne_nil hne
  obtain ⟨u, _, hu, ha⟩ := mem_hostCharges (a := a) (by rw [hcs]; exact List.mem_cons_self)
  obtain ⟨e, he, _, rfl, _⟩ := mem_charges ha
  exact g.edge_local hu he

theorem hostCharges_sum (g : NetworkGraph H) (h : Fin H) (c : Counter) (v : GlobalNodeID)
    (order : List GlobalNodeID) : (hostCharges g h c v order).sum =
      (order.map fun u => if u ∈ g.masters h then (charges g c u v).sum else 0).sum := by
  induction order with
  | nil => rfl
  | cons u order ih =>
    rw [hostCharges_cons, List.sum_append, ih, List.map_cons, List.sum_cons]
    by_cases hu : u ∈ g.masters h <;> simp [NetworkGraph.isOwned, hu]

/-- Over all hosts, every cancelled node of the graph charges once. -/
theorem sum_hostCharges {nodes : List GlobalNodeID} {order : Fin H → List GlobalNodeID}
    (hp : ∀ h, (order h).Perm nodes) :
    ∑ h, (hostCharges g h c v (order h)).sum =
      (nodes.map fun u => if g.IsNode u then (charges g c u v).sum else 0).sum := by
  have hperm (h : Fin H) : (hostCharges g h c v (order h)).sum =
      (nodes.map fun u => if u ∈ g.masters h then (charges g c u v).sum else 0).sum := by
    rw [hostCharges_sum]
    exact ((hp h).map _).sum_eq
  simp only [hperm]
  clear hperm hp
  induction nodes with
  | nil => simp
  | cons u nodes ih =>
    simp only [List.map_cons, List.sum_cons, Finset.sum_add_distrib, ih]
    congr 1
    by_cases hu : g.IsNode u
    · simp [NetworkGraph.master_iff hu, hu]
    · have hn (h : Fin H) : u ∉ g.masters h := fun hm => hu (NetworkGraph.isNode_of_master hm)
      simp [hn, hu]

end Charges

/-- The amounts of the edges of one kind from `u` to `v`. -/
def amountsBetween (g : NetworkGraph H) (t : Types) (u v : GlobalNodeID) : List ℚ :=
  ((g.edges u).filter fun e => e.data.type = t ∧ e.edgeDst = v).map fun e => e.data.amount

/-- Every sale from `u` to `v` has its own purchase from `v` to `u` of the same amount, and every
purchase its sale. -/
def Paired (g : NetworkGraph H) : Prop :=
  ∀ u v, g.IsNode u → g.IsNode v →
    (amountsBetween g .sale u v).Perm (amountsBetween g .purchase v u)

def PositiveAmounts (g : NetworkGraph H) : Prop :=
  ∀ v, g.IsNode v → ∀ e ∈ g.edges v, 0 < e.data.amount

theorem chargedCounter_eq_iff (t : Types) (c : Counter) :
    chargedCounter t = some c ↔ t = (match c with | .bought => .sale | .sold => .purchase) := by
  cases t <;> cases c <;> simp [chargedCounter]

/-- What `u` charges to `v` is what `v` trades with `u` on its own side. -/
theorem charges_perm {g : NetworkGraph H} (hp : Paired g) {c : Counter} {u v : GlobalNodeID}
    (hu : g.IsNode u) (hv : g.IsNode v) :
    (charges g c u v).Perm (amountsBetween g c.source v u) := by
  cases c with
  | sold =>
    have he : charges g .sold u v = amountsBetween g .purchase u v := by
      simp only [charges, amountsBetween, chargedCounter_eq_iff]
    rw [he]
    exact (hp v u hv hu).symm
  | bought =>
    have he : charges g .bought u v = amountsBetween g .sale u v := by
      simp only [charges, amountsBetween, chargedCounter_eq_iff]
    rw [he]
    exact hp u v hu hv

/-- The total of one kind of edge splits into the edges to the nodes of a list and the rest. -/
theorem amountSum_split (t : Types) {nodes : List GlobalNodeID} (hn : nodes.Nodup)
    (es : List OutEdge) :
    amountSum t es = amountSum t (es.filter fun e => e.edgeDst ∉ nodes) +
      (nodes.map fun u =>
        ((es.filter fun e => e.data.type = t ∧ e.edgeDst = u).map fun e => e.data.amount).sum).sum
    := by
  induction es with
  | nil => simp
  | cons e es ih =>
    have hsum : (nodes.map fun u => (((e :: es).filter fun e => e.data.type = t ∧
        e.edgeDst = u).map fun e => e.data.amount).sum).sum =
        (if e.data.type = t ∧ e.edgeDst ∈ nodes then e.data.amount else 0) +
          (nodes.map fun u => ((es.filter fun e => e.data.type = t ∧
            e.edgeDst = u).map fun e => e.data.amount).sum).sum := by
      clear ih
      induction nodes with
      | nil => simp
      | cons u nodes ih =>
        obtain ⟨hu, hn⟩ := List.nodup_cons.mp hn
        rw [List.map_cons, List.sum_cons, ih hn, List.map_cons, List.sum_cons]
        by_cases ht : e.data.type = t
        · by_cases heu : e.edgeDst = u
          · have hnot : e.edgeDst ∉ nodes := heu ▸ hu
            simp [ht, heu, hu, add_assoc]
          · by_cases hmem : e.edgeDst ∈ nodes
            · simp [ht, heu, hmem]
              ring
            · simp [ht, heu, hmem]
        · simp [ht]
    rw [hsum, amountSum_cons, ih]
    by_cases ht : e.data.type = t
    · by_cases hmem : e.edgeDst ∈ nodes
      · simp [ht, hmem]
        ring
      · simp [ht, hmem, amountSum_cons]
        ring
    · by_cases hmem : e.edgeDst ∈ nodes <;> simp [ht, hmem, amountSum_cons]

/-- The graph without the nodes of a list and without their edges. -/
def NetworkGraph.deleteNodes (g : NetworkGraph H) (nodes : List GlobalNodeID) : NetworkGraph H where
  masters h := (g.masters h).filter (· ∉ nodes)
  mirrors h := (g.mirrors h).filter (· ∉ nodes)
  getHostID := g.getHostID
  edges v := (g.edges v).filter fun e => e.edgeDst ∉ nodes
  masters_nodup h := (g.masters_nodup h).filter _
  host_of_master hv := g.host_of_master (List.mem_filter.mp hv).1
  mirror_mastered hv := by
    obtain ⟨hm, hn⟩ := List.mem_filter.mp hv
    exact List.mem_filter.mpr ⟨g.mirror_mastered hm, hn⟩
  mirror_remote hv := g.mirror_remote (List.mem_filter.mp hv).1
  edge_local hv he := by
    obtain ⟨he, hd⟩ := List.mem_filter.mp he
    have hl := g.edge_local (List.mem_filter.mp hv).1 he
    exact hl.imp (fun hm => List.mem_filter.mpr ⟨hm, hd⟩) fun hm => List.mem_filter.mpr ⟨hm, hd⟩

/-- A host before any value is filled in. -/
def HostState.zero : HostState := ⟨fun _ => NodeData.zero, fun _ _ => false⟩

/-- The totals `FillNodeValues` gives a master, starting from zero. -/
def filledValue (g : NetworkGraph H) (h : Fin H) (v : GlobalNodeID) : NodeData :=
  (fillMasters g (g.masters h) HostState.zero).data v

theorem filledValue_get {g : NetworkGraph H} {h : Fin H} {v : GlobalNodeID} (hv : v ∈ g.masters h)
    (c : Counter) : (filledValue g h v).get c = amountSum c.source (g.edges v) := by
  rw [filledValue, fillMasters_get g (g.masters_nodup h), if_pos hv]
  simp [HostState.zero]

/-- The masters hold the totals `FillNodeValues` computes from zero. -/
def Filled (g : NetworkGraph H) (s : Hosts H) : Prop :=
  ∀ h, ∀ v ∈ g.masters h, (∀ c, ((s h).data v).get c = (filledValue g h v).get c) ∧
    ((s h).data v).desired = (filledValue g h v).desired

def NonnegativeMirrors (g : NetworkGraph H) (s : Hosts H) : Prop :=
  ∀ h, ∀ v ∈ g.mirrors h, ∀ c, 0 ≤ ((s h).data v).get c

section Result
variable {g : NetworkGraph H} {nodes : List GlobalNodeID} {order : Fin H → List GlobalNodeID}
  {s : Hosts H} {c : Counter} {v : GlobalNodeID}

theorem hostCharges_pos (hpos : PositiveAmounts g) {h : Fin H} {l : List GlobalNodeID} :
    ∀ a ∈ hostCharges g h c v l, 0 < a := by
  intro a ha
  obtain ⟨u, _, hu, ha⟩ := mem_hostCharges ha
  obtain ⟨e, he, _, _, rfl⟩ := mem_charges ha
  exact hpos u (NetworkGraph.isNode_of_master hu) e he

/-- A mirror brings its master exactly the charges of its host, and a host without a copy has
none. -/
theorem mirror_contribution (hpos : PositiveAmounts g) (hnn : NonnegativeMirrors g s) {h : Fin H}
    (ho : v ∉ order h) (hm : v ∉ g.masters h) :
    (if v ∈ g.mirrors h ∧ (cancelOnHosts g order s h).bitset c v then
      ((cancelOnHosts g order s h).data v).get c else 0) =
        -(hostCharges g h c v (order h)).sum := by
  obtain ⟨hg, _, hb⟩ := cancelOnHosts_spec (g := g) (s := s) (c := c) ho
  have hown : g.isOwned h v = false := g.isOwned_eq_false_iff.mpr hm
  rw [hg, hb, hown]
  by_cases hcs : hostCharges g h c v (order h) = []
  · simp [hcs]
  · have hmir := (hostCharges_local hcs).resolve_left hm
    rw [if_pos ⟨hmir, by simpa using hcs⟩]
    exact foldl_applyCharge_mirror (hostCharges_pos hpos) hcs (hnn h v hmir c)

/-- The master of a node that stays loses what all hosts together charge to it. -/
theorem reduceAdd_cancelOnHosts (hpos : PositiveAmounts g) (hnn : NonnegativeMirrors g s)
    (hp : ∀ h, (order h).Perm nodes) {k : Fin H} (hk : v ∈ g.masters k) (hv : v ∉ nodes) :
    ((reduceAdd g c (cancelOnHosts g order s) k).data v).get c =
      ((s k).data v).get c - ∑ h, (hostCharges g h c v (order h)).sum := by
  have ho (h : Fin H) : v ∉ order h := fun hm => hv ((hp h).subset hm)
  have hown : g.isOwned k v = true := g.isOwned_iff.mpr hk
  have hmaster : ((cancelOnHosts g order s k).data v).get c =
      ((s k).data v).get c - (hostCharges g k c v (order k)).sum := by
    rw [(cancelOnHosts_spec (ho k)).1, hown, foldl_applyCharge_owned]
  have hmirrors : mirrorSum g c (cancelOnHosts g order s) v =
      ∑ h, if h = k then 0 else -(hostCharges g h c v (order h)).sum := by
    apply Finset.sum_congr rfl
    intro h _
    by_cases hh : h = k
    · have hnm : v ∉ g.mirrors h := fun hx => NetworkGraph.not_master_of_mirror hx (hh ▸ hk)
      simp [hh, hh ▸ hnm]
    · have hnm : v ∉ g.masters h := fun hx =>
        hh ((g.host_of_master hx).symm.trans (g.host_of_master hk))
      rw [mirror_contribution hpos hnn (ho h) hnm, if_neg hh]
  rw [reduceAdd_master hk, hmaster, hmirrors,
    ← Finset.add_sum_erase _ _ (Finset.mem_univ k), if_pos rfl,
    ← Finset.add_sum_erase _ (fun h => (hostCharges g h c v (order h)).sum) (Finset.mem_univ k)]
  have herase : ∑ h ∈ Finset.univ.erase k,
      (if h = k then (0 : ℚ) else -(hostCharges g h c v (order h)).sum) =
        -∑ h ∈ Finset.univ.erase k, (hostCharges g h c v (order h)).sum := by
    rw [← Finset.sum_neg_distrib]
    apply Finset.sum_congr rfl
    intro h hh
    rw [if_neg (Finset.ne_of_mem_erase hh)]
  rw [herase]
  ring

/-- Charges and own edges agree, so what is left is the total over the edges that stay. -/
theorem charges_total (hpair : Paired g) (hn : nodes.Nodup) (hv : g.IsNode v) :
    amountSum c.source (g.edges v) -
        (nodes.map fun u => if g.IsNode u then (charges g c u v).sum else 0).sum =
      amountSum c.source ((g.edges v).filter fun e => e.edgeDst ∉ nodes) := by
  have hcharges : (nodes.map fun u => if g.IsNode u then (charges g c u v).sum else 0) =
      nodes.map fun u => (amountsBetween g c.source v u).sum := by
    apply List.map_congr_left
    intro u _
    by_cases hu : g.IsNode u
    · rw [if_pos hu, (charges_perm hpair hu hv).sum_eq]
    · have hnone : amountsBetween g c.source v u = [] := by
        rw [amountsBetween, List.map_eq_nil_iff, List.filter_eq_nil_iff]
        intro e he hd
        obtain ⟨_, rfl⟩ := of_decide_eq_true hd
        exact hu (NetworkGraph.edge_isNode hv he)
      rw [if_neg hu, hnone, List.sum_nil]
  rw [hcharges, amountSum_split c.source hn (g.edges v)]
  unfold amountsBetween
  ring

theorem deleteNodes_value {H' : ℕ} {g' : NetworkGraph H'} {h' : Fin H'} (hv : v ∈ g'.masters h')
    (hn : v ∉ nodes) : (filledValue (g'.deleteNodes nodes) h' v).get c =
      amountSum c.source ((g'.edges v).filter fun e => e.edgeDst ∉ nodes) :=
  filledValue_get (List.mem_filter.mpr ⟨hv, by simpa using hn⟩) c

/-- After `CancelNodes` the cancelled nodes are at zero everywhere. Every other master has the
totals of the graph without them, in whatever way that graph is split over hosts, and keeps its
demand. -/
theorem cancelNodes_result (g : NetworkGraph H) (s : Hosts H) (nodes : List GlobalNodeID)
    (order : Fin H → List GlobalNodeID) (hpair : Paired g) (hpos : PositiveAmounts g)
    (hfill : Filled g s) (hnn : NonnegativeMirrors g s) (hn : nodes.Nodup)
    (hp : ∀ h, (order h).Perm nodes) :
    (∀ h, ∀ v ∈ nodes, g.isLocal h v = true →
      ((cancelNodes g nodes order s h).data v).sold = 0 ∧
        ((cancelNodes g nodes order s h).data v).bought = 0 ∧
        ((cancelNodes g nodes order s h).data v).desired = 0) ∧
    ∀ h, ∀ v ∈ g.masters h, v ∉ nodes →
      (∀ {H' : ℕ} (g' : NetworkGraph H') (h' : Fin H'), g'.edges v = g.edges v → v ∈ g'.masters h' →
        ((cancelNodes g nodes order s h).data v).sold =
            (filledValue (g'.deleteNodes nodes) h' v).sold ∧
          ((cancelNodes g nodes order s h).data v).bought =
            (filledValue (g'.deleteNodes nodes) h' v).bought) ∧
        ((cancelNodes g nodes order s h).data v).desired = ((s h).data v).desired := by
  constructor
  · intro h v hv hl
    have hc := cancelLocals_of_mem g h hv hl
      (reduceAdd g .sold (reduceAdd g .bought (cancelOnHosts g order s)) h)
    exact ⟨(congrArg NodeData.sold hc).symm, (congrArg NodeData.bought hc).symm,
      (congrArg NodeData.desired hc).symm⟩
  · intro h v hv hnot
    have hget (c : Counter) : ((cancelNodes g nodes order s h).data v).get c =
        amountSum c.source ((g.edges v).filter fun e => e.edgeDst ∉ nodes) := by
      rw [cancelNodes_get hnot, reduceAdd_cancelOnHosts hpos hnn hp hv hnot, sum_hostCharges hp,
        (hfill h v hv).1 c, filledValue_get hv]
      exact charges_total hpair hn (NetworkGraph.isNode_of_master hv)
    refine ⟨fun g' h' he hv' => ⟨?_, ?_⟩, cancelNodes_desired hnot (hp h)⟩
    · exact (hget .sold).trans (he ▸ (deleteNodes_value (c := .sold) hv' hnot).symm)
    · exact (hget .bought).trans (he ▸ (deleteNodes_value (c := .bought) hv' hnot).symm)

end Result

theorem chainGraph_paired : Paired chainGraph := by
  intro u v hu hv
  rcases chainGraph_node hu with rfl | rfl | rfl <;> rcases chainGraph_node hv with rfl | rfl | rfl <;>
    simp [amountsBetween, chainGraph, tradeEdge]

theorem chainGraph_positive : PositiveAmounts chainGraph := by
  intro v hv
  rcases chainGraph_node hv with rfl | rfl | rfl <;> simp [chainGraph, tradeEdge]

/-- The hosts of a graph after `FillNodeValues`, before anything is synchronised. -/
def filledHosts (g : NetworkGraph H) : Hosts H := fun h =>
  fillMasters g (g.masters h) HostState.zero

theorem filledHosts_mirrors (g : NetworkGraph H) : NonnegativeMirrors g (filledHosts g) := by
  intro h v hv c
  rw [filledHosts, fillMasters_get g (g.masters_nodup h),
    if_neg (NetworkGraph.not_master_of_mirror hv)]
  simp [HostState.zero]

theorem cancelNodes_result_chain :
    ((cancelNodes chainGraph [3] (fun _ => [3]) (filledHosts chainGraph) 1).data 2).sold =
      (filledValue (chainGraph.deleteNodes [3]) 1 2).sold :=
  (((cancelNodes_result chainGraph (filledHosts chainGraph) [3] (fun _ => [3]) chainGraph_paired
    chainGraph_positive (fun _ _ _ => ⟨fun _ => rfl, rfl⟩) (filledHosts_mirrors _)
    (List.nodup_singleton 3) fun _ => .rfl).2 1 2 (by decide) (by decide)).1
      chainGraph 1 rfl (by decide)).1

end Wf4
