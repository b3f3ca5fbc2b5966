import GraphLogSketch.Wf4.NodeValues

/-! Cancelling nodes. What a host does to a counter of a node that is not cancelled is a list of
charges, one for each edge that a cancelled node of the host shares with it. -/
namespace Wf4
variable {H : ℕ}

/-- The counter of the neighbour that an edge of a cancelled node reduces. -/
def chargedCounter : Types → Option Counter
  | .sale => some .bought
  | .purchase => some .sold
  | _ => none

/-- Reduce a counter of a neighbour; a mirror is first brought down to zero, since its value will
be added to the master's. -/
def chargeNeighbour (g : NetworkGraph H) (h : Fin H) (c : Counter) (e : OutEdge)
    (s : HostState) : HostState :=
  let s := if g.isOwned h e.edgeDst then s else s.modify e.edgeDst (NodeData.atomicMin c 0)
  (s.modify e.edgeDst (NodeData.atomicSubtract c e.data.amount)).mark c e.edgeDst

def cancelEdge (g : NetworkGraph H) (h : Fin H) (s : HostState) (e : OutEdge) : HostState :=
  match chargedCounter e.data.type with
  | some c => chargeNeighbour g h c e s
  | none => s

def cancelNode (g : NetworkGraph H) (h : Fin H) (s : HostState) (v : GlobalNodeID) : HostState :=
  if g.isLocal h v then
    let s := s.modify v NodeData.cancel
    if g.isOwned h v then (g.edges v).foldl (cancelEdge g h) s else s
  else s

/-- The last pass of `CancelNodes`: cancelled nodes charged by one another are zeroed again. -/
def cancelLocals (g : NetworkGraph H) (h : Fin H) (nodes : List GlobalNodeID) (s : HostState) :
    HostState :=
  nodes.foldl (fun s v => if g.isLocal h v then s.modify v NodeData.cancel else s) s

/-- The parallel loop of `CancelNodes`: each host goes through the nodes in an order of its own. -/
def cancelOnHosts (g : NetworkGraph H) (order : Fin H → List GlobalNodeID) (s : Hosts H) :
    Hosts H := fun h =>
  (order h).foldl (cancelNode g h) (((s h).clearBits .bought).clearBits .sold)

def cancelNodes (g : NetworkGraph H) (nodes : List GlobalNodeID)
    (order : Fin H → List GlobalNodeID) (s : Hosts H) : Hosts H :=
  let s := cancelOnHosts g order s
  let s := reduceAdd g .bought s
  let s := reduceAdd g .sold s
  fun h => cancelLocals g h nodes (s h)

/-- The amounts that the edges of `u` charge to a counter of `v`. -/
def charges (g : NetworkGraph H) (c : Counter) (u v : GlobalNodeID) : List ℚ :=
  ((g.edges u).filter fun e => chargedCounter e.data.type = some c ∧ e.edgeDst = v).map
    fun e => e.data.amount

/-- Everything a host charges to a counter of `v` when it cancels the nodes of a list. -/
def hostCharges (g : NetworkGraph H) (h : Fin H) (c : Counter) (v : GlobalNodeID)
    (order : List GlobalNodeID) : List ℚ :=
  order.flatMap fun u => if g.isOwned h u then charges g c u v else []

/-- The effect of one charge on a counter, at the master and at a mirror. -/
def applyCharge (owned : Bool) (x a : ℚ) : ℚ := (if owned then x else min x 0) - a

section Charge
variable (g : NetworkGraph H) (h : Fin H) (s : HostState) (c : Counter) (v : GlobalNodeID)

theorem chargeNeighbour_get (c' : Counter) (e : OutEdge) :
    ((chargeNeighbour g h c' e s).data v).get c =
      if c' = c ∧ e.edgeDst = v then applyCharge (g.isOwned h v) ((s.data v).get c) e.data.amount
      else (s.data v).get c := by
  unfold chargeNeighbour applyCharge
  by_cases hv : e.edgeDst = v
  · subst hv
    by_cases hc : c' = c
    · subst hc
      cases g.isOwned h e.edgeDst <;> simp
    · have hne : c ≠ c' := Ne.symm hc
      cases g.isOwned h e.edgeDst <;>
        simp [hc, NodeData.atomicSubtract, NodeData.atomicMin, NodeData.get_set_of_ne _ _ _ _ hne]
  · have hne : v ≠ e.edgeDst := Ne.symm hv
    cases g.isOwned h e.edgeDst <;> simp [hv, HostState.modify_data_of_ne _ _ _ _ hne]

theorem chargeNeighbour_desired (c' : Counter) (e : OutEdge) :
    ((chargeNeighbour g h c' e s).data v).desired = (s.data v).desired := by
  unfold chargeNeighbour
  by_cases hv : v = e.edgeDst
  · subst hv
    cases g.isOwned h e.edgeDst <;> simp [NodeData.atomicSubtract, NodeData.atomicMin]
  · cases g.isOwned h e.edgeDst <;> simp [HostState.modify_data_of_ne _ _ _ _ hv]

theorem chargeNeighbour_bitset (c' : Counter) (e : OutEdge) :
    (chargeNeighbour g h c' e s).bitset c v =
      (decide (c' = c ∧ e.edgeDst = v) || s.bitset c v) := by
  unfold chargeNeighbour
  rw [HostState.mark_bitset]
  have hcomm : (c = c' ∧ v = e.edgeDst) ↔ (c' = c ∧ e.edgeDst = v) := by
    constructor <;> rintro ⟨rfl, rfl⟩ <;> exact ⟨rfl, rfl⟩
  cases g.isOwned h e.edgeDst <;> simp [hcomm]

theorem cancelEdge_get (e : OutEdge) :
    ((cancelEdge g h s e).data v).get c =
      if chargedCounter e.data.type = some c ∧ e.edgeDst = v then
        applyCharge (g.isOwned h v) ((s.data v).get c) e.data.amount
      else (s.data v).get c := by
  unfold cancelEdge
  cases hc : chargedCounter e.data.type with
  | none => simp
  | some c' => simp [chargeNeighbour_get]

theorem cancelEdge_desired (e : OutEdge) :
    ((cancelEdge g h s e).data v).desired = (s.data v).desired := by
  unfold cancelEdge
  cases chargedCounter e.data.type with
  | none => rfl
  | some c' => exact chargeNeighbour_desired ..

theorem cancelEdge_bitset (e : OutEdge) :
    (cancelEdge g h s e).bitset c v =
      (decide (chargedCounter e.data.type = some c ∧ e.edgeDst = v) || s.bitset c v) := by
  unfold cancelEdge
  cases hc : chargedCounter e.data.type with
  | none => simp
  | some c' => simp [chargeNeighbour_bitset]

end Charge

/-- The charges of a list of edges, applied one after the other. -/
theorem cancelEdges_spec (g : NetworkGraph H) (h : Fin H) (es : List OutEdge) (s : HostState)
    (c : Counter) (v : GlobalNodeID) :
    let cs := (es.filter fun e => chargedCounter e.data.type = some c ∧ e.edgeDst = v).map
      fun e => e.data.amount
    let s' := es.foldl (cancelEdge g h) s
    (s'.data v).get c = cs.foldl (applyCharge (g.isOwned h v)) ((s.data v).get c) ∧
      (s'.data v).desired = (s.data v).desired ∧
      s'.bitset c v = (decide (cs ≠ []) || s.bitset c v) := by
  induction es generalizing s with
  | nil => simp
  | cons e es ih =>
    obtain ⟨hg, hd, hb⟩ := ih (cancelEdge g h s e)
    dsimp only at hg hd hb ⊢
    rw [List.foldl_cons, hg, hd, hb, cancelEdge_get, cancelEdge_desired, cancelEdge_bitset]
    by_cases hc : chargedCounter e.data.type = some c ∧ e.edgeDst = v <;> simp [hc]

/-- Cancelling `u` on a host applies the charges of `u` to every other node. -/
theorem cancelNode_spec (g : NetworkGraph H) (h : Fin H) (s : HostState) {u v : GlobalNodeID}
    (hne : v ≠ u) (c : Counter) :
    let cs := if g.isOwned h u then charges g c u v else []
    let s' := cancelNode g h s u
    (s'.data v).get c = cs.foldl (applyCharge (g.isOwned h v)) ((s.data v).get c) ∧
      (s'.data v).desired = (s.data v).desired ∧
      s'.bitset c v = (decide (cs ≠ []) || s.bitset c v) := by
  unfold cancelNode charges
  by_cases ho : g.isOwned h u = true
  · have hl : g.isLocal h u = true := by
      rw [NetworkGraph.isLocal_iff]
      exact Or.inl (g.isOwned_iff.mp ho)
    have hspec := cancelEdges_spec g h (g.edges u) (s.modify u NodeData.cancel) c v
    simpa [ho, hl, HostState.modify_data_of_ne _ _ _ _ hne] using hspec
  · by_cases hl : g.isLocal h u = true <;>
      simp [ho, hl, HostState.modify_data_of_ne _ _ _ _ hne]

theorem hostCharges_cons (g : NetworkGraph H) (h : Fin H) (c : Counter) (v u : GlobalNodeID)
    (order : List GlobalNodeID) : hostCharges g h c v (u :: order) =
      (if g.isOwned h u then charges g c u v else []) ++ hostCharges g h c v order :=
  List.flatMap_cons

/-- A whole list of cancelled nodes applies all the charges of the host. -/
theorem cancelOrder_spec (g : NetworkGraph H) (h : Fin H) {v : GlobalNodeID} (c : Counter)
    {order : List GlobalNodeID} (hv : v ∉ order) (s : HostState) :
    let cs := hostCharges g h c v order
    let s' := order.foldl (cancelNode g h) s
    (s'.data v).get c = cs.foldl (applyCharge (g.isOwned h v)) ((s.data v).get c) ∧
      (s'.data v).desired = (s.data v).desired ∧
      s'.bitset c v = (decide (cs ≠ []) || s.bitset c v) := by
  induction order generalizing s with
  | nil => simp [hostCharges]
  | cons u order ih =>
    obtain ⟨hne, hv⟩ : v ≠ u ∧ v ∉ order := by simpa using hv
    obtain ⟨hg, hd, hb⟩ := ih hv (cancelNode g h s u)
    obtain ⟨hg', hd', hb'⟩ := cancelNode_spec g h s hne c
    dsimp only at hg hd hb hg' hd' hb' ⊢
    rw [List.foldl_cons, hg, hd, hb, hg', hd', hb', hostCharges_cons, List.foldl_append]
    refine ⟨rfl, rfl, ?_⟩
    cases (if g.isOwned h u then charges g c u v else []) <;>
      cases hostCharges g h c v order <;> simp

theorem cancelLocals_of_not_mem (g : NetworkGraph H) (h : Fin H) {v : GlobalNodeID}
    {nodes : List GlobalNodeID} (hv : v ∉ nodes) (s : HostState) :
    (cancelLocals g h nodes s).data v = s.data v := by
  induction nodes generalizing s with
  | nil => rfl
  | cons u nodes ih =>
    obtain ⟨hne, hv⟩ : v ≠ u ∧ v ∉ nodes := by simpa using hv
    rw [cancelLocals, List.foldl_cons, ← cancelLocals, ih hv]
    split_ifs
    · exact HostState.modify_data_of_ne _ _ _ _ hne
    · rfl

theorem cancelLocals_of_cancelled (g : NetworkGraph H) (h : Fin H) {v : GlobalNodeID}
    (nodes : List GlobalNodeID) {s : HostState} (hs : (s.data v).cancel = s.data v) :
    ((cancelLocals g h nodes s).data v).cancel = (cancelLocals g h nodes s).data v := by
  induction nodes generalizing s with
  | nil => exact hs
  | cons u nodes ih =>
    rw [cancelLocals, List.foldl_cons, ← cancelLocals]
    apply ih
    split_ifs
    · by_cases hvu : v = u
      · subst hvu
        rw [HostState.modify_data_self]
        rfl
      · rw [HostState.modify_data_of_ne _ _ _ _ hvu, hs]
    · exact hs

/-- Whatever the other cancellations did to it, a cancelled local node ends at zero. -/
theorem cancelLocals_of_mem (g : NetworkGraph H) (h : Fin H) {v : GlobalNodeID}
    {nodes : List GlobalNodeID} (hv : v ∈ nodes) (hl : g.isLocal h v = true) (s : HostState) :
    ((cancelLocals g h nodes s).data v).cancel = (cancelLocals g h nodes s).data v := by
  induction nodes generalizing s with
  | nil => simp at hv
  | cons u nodes ih =>
    rw [cancelLocals, List.foldl_cons, ← cancelLocals]
    by_cases hvu : v = u
    · subst hvu
      apply cancelLocals_of_cancelled
      rw [if_pos hl, HostState.modify_data_self]
      rfl
    · exact ih ((List.mem_cons.mp hv).resolve_left hvu) _

section Value
variable {g : NetworkGraph H} {order : Fin H → List GlobalNodeID} {s : Hosts H} {h : Fin H}
  {c : Counter} {v : GlobalNodeID}

theorem cancelOnHosts_spec (hv : v ∉ order h) :
    let cs := hostCharges g h c v (order h)
    let s' := cancelOnHosts g order s h
    (s'.data v).get c = cs.foldl (applyCharge (g.isOwned h v)) (((s h).data v).get c) ∧
      (s'.data v).desired = ((s h).data v).desired ∧ s'.bitset c v = decide (cs ≠ []) := by
  obtain ⟨hg, hd, hb⟩ :=
    cancelOrder_spec g h c hv (((s h).clearBits .bought).clearBits .sold)
  refine ⟨hg, hd, hb.trans ?_⟩
  cases c <;> simp [HostState.clearBits]

/-- Synchronising one counter does not see the other one. -/
theorem reduceAdd_get_congr {s' : Hosts H} (hb : ∀ k, (s' k).bitset = (s k).bitset)
    (hd : ∀ k w, ((s' k).data w).get c = ((s k).data w).get c) :
    ((reduceAdd g c s' h).data v).get c = ((reduceAdd g c s h).data v).get c := by
  have hm : mirrorSum g c s' v = mirrorSum g c s v := by simp only [mirrorSum, hb, hd]
  have ha (k : Fin H) : ((addMirrors g c s' k).data v).get c =
      ((addMirrors g c s k).data v).get c := by
    unfold addMirrors
    dsimp only
    rw [hb k, hm]
    split_ifs <;> simp [hd]
  have ht : Touched g c s' v ↔ Touched g c s v := by simp only [Touched, hb]
  by_cases htv : Touched g c s v
  · by_cases hv : v ∈ g.mirrors h
    · rw [reduceAdd, reduceAdd, broadcast_of_flagged hv (by simpa [ht] using htv),
        broadcast_of_flagged hv (by simpa using htv), NodeData.get_set_self,
        NodeData.get_set_self, ha]
    · rw [reduceAdd, reduceAdd, broadcast_of_not_mirror hv, broadcast_of_not_mirror hv, ha]
  · rw [reduceAdd, reduceAdd, broadcast_of_not_flagged (by simpa [ht] using htv),
      broadcast_of_not_flagged (by simpa using htv), ha]

/-- Each counter of a node that stays is what its own synchronisation makes of it. -/
theorem cancelNodes_get {nodes : List GlobalNodeID} (hv : v ∉ nodes) :
    ((cancelNodes g nodes order s h).data v).get c =
      ((reduceAdd g c (cancelOnHosts g order s) h).data v).get c := by
  rw [cancelNodes]
  dsimp only
  rw [cancelLocals_of_not_mem g h hv]
  cases c with
  | sold =>
    exact reduceAdd_get_congr (fun _ => rfl) fun k w => reduceAdd_get_of_ne (by decide)
  | bought => exact reduceAdd_get_of_ne (by decide)

theorem cancelNodes_desired {nodes : List GlobalNodeID} (hv : v ∉ nodes)
    (hp : (order h).Perm nodes) :
    ((cancelNodes g nodes order s h).data v).desired = ((s h).data v).desired := by
  rw [cancelNodes]
  dsimp only
  have ho : v ∉ order h := fun hm => hv (hp.subset hm)
  rw [cancelLocals_of_not_mem g h hv, reduceAdd_desired, reduceAdd_desired,
    (cancelOnHosts_spec (c := .sold) ho).2.1]

end Value

end Wf4
