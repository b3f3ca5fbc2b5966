import GraphLogSketch.Wf4.Sync

/-! The trade totals of every node and the edge probabilities computed from them. -/
namespace Wf4
variable {H : ℕ}

/-- One turn of the loop of `FillNodeValues`. Both end points learn their ids; only the node itself
collects amounts. -/
def fillEdge (node : GlobalNodeID) (d : HostData) (e : OutEdge) : HostData :=
  let d := d.modify node fun n => { n with id := e.data.src }
  let d := d.modify e.edgeDst fun n => { n with id := e.data.dst }
  match e.data.type with
  | .sale => d.modify node (NodeData.atomicAdd .sold e.data.amount)
  | .purchase =>
      (d.modify node (NodeData.atomicAdd .bought e.data.amount)).modify node fun n =>
        { n with desired := n.desired + e.data.amount }
  | _ => d

def fillNodeValues (g : NetworkGraph H) (s : HostState) (node : GlobalNodeID) : HostState :=
  let s := { s with data := (g.edges node).foldl (fillEdge node) s.data }
  if 0 < (s.data node).sold then s.mark .sold node else s

/-- The sum of the amounts of a list of edges of one kind. -/
def amountSum (t : Types) (es : List OutEdge) : ℚ :=
  ((es.filter fun e => e.data.type = t).map fun e => e.data.amount).sum

@[simp] theorem amountSum_nil (t : Types) : amountSum t [] = 0 := rfl

theorem amountSum_cons (t : Types) (e : OutEdge) (es : List OutEdge) :
    amountSum t (e :: es) = (if e.data.type = t then e.data.amount else 0) + amountSum t es := by
  by_cases h : e.data.type = t <;> simp [amountSum, h]

/-- The kind of edge that feeds a counter. -/
def Counter.source : Counter → Types
  | .sold => .sale
  | .bought => .purchase

theorem modify_get_eq {d : HostData} {u v : GlobalNodeID} {f : NodeData → NodeData} {c : Counter}
    (hf : ∀ n, (f n).get c = n.get c) : (d.modify u f v).get c = (d v).get c := by
  by_cases h : v = u
  · subst h
    rw [HostData.modify_self, hf]
  · rw [HostData.modify_of_ne _ _ h]

theorem modify_desired_eq {d : HostData} {u v : GlobalNodeID} {f : NodeData → NodeData}
    (hf : ∀ n, (f n).desired = n.desired) : (d.modify u f v).desired = (d v).desired := by
  by_cases h : v = u
  · subst h
    rw [HostData.modify_self, hf]
  · rw [HostData.modify_of_ne _ _ h]

/-- A turn adds the edge's amount to the counter its kind feeds, on the node itself. -/
theorem fillEdge_get (node v : GlobalNodeID) (d : HostData) (e : OutEdge) (c : Counter) :
    (fillEdge node d e v).get c =
      (d v).get c + if v = node ∧ e.data.type = c.source then e.data.amount else 0 := by
  have hid (x : UInt64) (n : NodeData) : ({ n with id := x } : NodeData).get c = n.get c := by
    cases c <;> rfl
  have hdes (x : ℚ) (n : NodeData) :
      ({ n with desired := x } : NodeData).get c = n.get c := by cases c <;> rfl
  have hbase : ((d.modify node fun n => { n with id := e.data.src }).modify e.edgeDst
      (fun n => { n with id := e.data.dst }) v).get c = (d v).get c := by
    rw [modify_get_eq (hid _), modify_get_eq (hid _)]
  have hadd (c' : Counter) (d' : HostData) (hd : (d' v).get c = (d v).get c) :
      (d'.modify node (NodeData.atomicAdd c' e.data.amount) v).get c =
        (d v).get c + if v = node ∧ c' = c then e.data.amount else 0 := by
    by_cases hv : v = node
    · subst hv
      by_cases hc : c' = c
      · subst hc
        simp [hd]
      · rw [HostData.modify_self, NodeData.atomicAdd, NodeData.get_set_of_ne _ _ _ _ (Ne.symm hc),
          hd]
        simp [hc]
    · rw [HostData.modify_of_ne _ _ hv, hd]
      simp [hv]
  unfold fillEdge
  cases ht : e.data.type <;> dsimp only
  case sale => rw [hadd .sold _ hbase]; cases c <;> simp [Counter.source]
  case purchase =>
    rw [modify_get_eq fun n => hdes _ n, hadd .bought _ hbase]
    cases c <;> simp [Counter.source]
  all_goals rw [hbase]; cases c <;> simp [Counter.source]

theorem fillEdge_desired (node v : GlobalNodeID) (d : HostData) (e : OutEdge) :
    (fillEdge node d e v).desired =
      (d v).desired + if v = node ∧ e.data.type = .purchase then e.data.amount else 0 := by
  have hadd (c : Counter) (x : ℚ) (n : NodeData) : (n.atomicAdd c x).desired = n.desired := by
    simp [NodeData.atomicAdd]
  have hid (x : UInt64) (n : NodeData) : ({ n with id := x } : NodeData).desired = n.desired := rfl
  have hbase : ((d.modify node fun n => { n with id := e.data.src }).modify e.edgeDst
      (fun n => { n with id := e.data.dst }) v).desired = (d v).desired := by
    rw [modify_desired_eq (hid _), modify_desired_eq (hid _)]
  unfold fillEdge
  cases ht : e.data.type <;> dsimp only
  case sale => rw [modify_desired_eq (hadd _ _), hbase]; simp
  case purchase =>
    by_cases hv : v = node
    · subst hv
      rw [HostData.modify_self]
      simp only [modify_desired_eq (hadd _ _), hbase, and_self, if_true]
    · rw [HostData.modify_of_ne _ _ hv, modify_desired_eq (hadd _ _), hbase]
      simp [hv]
  all_goals rw [hbase]; simp

theorem fillEdges_get (node v : GlobalNodeID) (c : Counter) (es : List OutEdge) (d : HostData) :
    (es.foldl (fillEdge node) d v).get c =
      (d v).get c + if v = node then amountSum c.source es else 0 := by
  induction es generalizing d with
  | nil => simp
  | cons e es ih =>
    rw [List.foldl_cons, ih, fillEdge_get, amountSum_cons]
    by_cases hv : v = node <;> simp [hv, add_assoc]

theorem fillEdges_desired (node v : GlobalNodeID) (es : List OutEdge) (d : HostData) :
    (es.foldl (fillEdge node) d v).desired =
      (d v).desired + if v = node then amountSum .purchase es else 0 := by
  induction es generalizing d with
  | nil => simp
  | cons e es ih =>
    rw [List.foldl_cons, ih, fillEdge_desired, amountSum_cons]
    by_cases hv : v = node <;> simp [hv, add_assoc]

section Fill
variable (g : NetworkGraph H) (s : HostState) (node v : GlobalNodeID) (c : Counter)

theorem fillNodeValues_data :
    (fillNodeValues g s node).data = (g.edges node).foldl (fillEdge node) s.data := by
  unfold fillNodeValues
  dsimp only
  split_ifs <;> rfl

theorem fillNodeValues_get : ((fillNodeValues g s node).data v).get c =
    (s.data v).get c + if v = node then amountSum c.source (g.edges v) else 0 := by
  rw [fillNodeValues_data, fillEdges_get]
  by_cases hv : v = node <;> simp [hv]

theorem fillNodeValues_desired : ((fillNodeValues g s node).data v).desired =
    (s.data v).desired + if v = node then amountSum .purchase (g.edges v) else 0 := by
  rw [fillNodeValues_data, fillEdges_desired]
  by_cases hv : v = node <;> simp [hv]

/-- The bit of the node itself is set when it sold something; no other bit changes. -/
theorem fillNodeValues_bitset : (fillNodeValues g s node).bitset c v =
    (s.bitset c v || decide (c = .sold ∧ v = node ∧
      0 < (s.data v).sold + amountSum .sale (g.edges v))) := by
  have hs := fillEdges_get node node .sold (g.edges node) s.data
  simp only [NodeData.get, Counter.source, if_true] at hs
  unfold fillNodeValues
  dsimp only
  rw [hs]
  by_cases hv : v = node
  · subst hv
    split_ifs with hp
    · rw [HostState.mark_bitset]
      cases c <;> simp [hp, Bool.or_comm]
    · simp [hp]
  · split_ifs
    · rw [HostState.mark_bitset]
      simp [hv]
    · simp [hv]

end Fill

/-- `FillNodeValues` over the masters of a host, in any order. -/
def fillMasters (g : NetworkGraph H) (order : List GlobalNodeID) (s : HostState) : HostState :=
  order.foldl (fillNodeValues g) s

theorem fillMasters_get (g : NetworkGraph H) {order : List GlobalNodeID} (hn : order.Nodup)
    (s : HostState) (v : GlobalNodeID) (c : Counter) :
    ((fillMasters g order s).data v).get c =
      (s.data v).get c + if v ∈ order then amountSum c.source (g.edges v) else 0 := by
  induction order generalizing s with
  | nil => simp [fillMasters]
  | cons u order ih =>
    obtain ⟨hu, hn⟩ := List.nodup_cons.mp hn
    rw [fillMasters, List.foldl_cons, ← fillMasters, ih hn, fillNodeValues_get]
    by_cases hv : v = u
    · subst hv
      simp [hu]
    · simp [hv]

theorem fillMasters_desired (g : NetworkGraph H) {order : List GlobalNodeID} (hn : order.Nodup)
    (s : HostState) (v : GlobalNodeID) :
    ((fillMasters g order s).data v).desired =
      (s.data v).desired + if v ∈ order then amountSum .purchase (g.edges v) else 0 := by
  induction order generalizing s with
  | nil => simp [fillMasters]
  | cons u order ih =>
    obtain ⟨hu, hn⟩ := List.nodup_cons.mp hn
    rw [fillMasters, List.foldl_cons, ← fillMasters, ih hn, fillNodeValues_desired]
    by_cases hv : v = u
    · subst hv
      simp [hu]
    · simp [hv]

theorem fillMasters_bitset (g : NetworkGraph H) {order : List GlobalNodeID} (hn : order.Nodup)
    (s : HostState) (v : GlobalNodeID) (c : Counter) :
    (fillMasters g order s).bitset c v =
      (s.bitset c v || decide (c = .sold ∧ v ∈ order ∧
        0 < (s.data v).sold + amountSum .sale (g.edges v))) := by
  induction order generalizing s with
  | nil => simp [fillMasters]
  | cons u order ih =>
    obtain ⟨hu, hn⟩ := List.nodup_cons.mp hn
    have hs := fillNodeValues_get g s u v .sold
    simp only [NodeData.get, Counter.source] at hs
    rw [fillMasters, List.foldl_cons, ← fillMasters, ih hn, fillNodeValues_bitset, hs]
    by_cases hv : v = u
    · subst hv
      simp [hu]
    · simp [hv]

end Wf4
