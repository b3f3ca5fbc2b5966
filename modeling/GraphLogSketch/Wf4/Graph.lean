import Mathlib.Data.Fintype.Basic
import Mathlib.Data.Rat.Defs
import Mathlib.Data.UInt
import Mathlib.Tactic

/-! The network graph as it is split over the hosts: every node is mastered by one host, which
stores the node's out-edges; a host keeps a mirror of each remote destination of its edges. -/
namespace Wf4

abbrev GlobalNodeID := UInt64

/-- The node and edge kinds the program names. -/
inductive Types where
  | person | device | sale | purchase | uses | friend | communication | author | none
  deriving DecidableEq, Repr

structure NetworkEdge where
  src : UInt64
  dst : UInt64
  type : Types
  amount : ℚ
  weight : ℚ
  deriving DecidableEq

/-- An out-edge in the topology: the global id of its destination and its data. -/
structure OutEdge where
  edgeDst : GlobalNodeID
  data : NetworkEdge
  deriving DecidableEq

structure NodeData where
  id : UInt64
  frequency : UInt64
  sold : ℚ
  bought : ℚ
  desired : ℚ
  deriving DecidableEq

def NodeData.zero : NodeData := ⟨0, 0, 0, 0, 0⟩

/-- `Cancel()` leaves the id and the frequency alone. -/
def NodeData.cancel (n : NodeData) : NodeData := { n with sold := 0, bought := 0, desired := 0 }

/-- The partitioned graph. A local copy of a node is addressed by its global id, so `getLID` and
`getGID` do not appear. -/
structure NetworkGraph (H : ℕ) where
  masters : Fin H → List GlobalNodeID
  mirrors : Fin H → List GlobalNodeID
  getHostID : GlobalNodeID → Fin H
  edges : GlobalNodeID → List OutEdge
  masters_nodup : ∀ h, (masters h).Nodup
  host_of_master : ∀ {h v}, v ∈ masters h → getHostID v = h
  mirror_mastered : ∀ {h v}, v ∈ mirrors h → v ∈ masters (getHostID v)
  mirror_remote : ∀ {h v}, v ∈ mirrors h → getHostID v ≠ h
  edge_local : ∀ {h v e}, v ∈ masters h → e ∈ edges v →
    e.edgeDst ∈ masters h ∨ e.edgeDst ∈ mirrors h

namespace NetworkGraph
variable {H : ℕ} (g : NetworkGraph H)

def isOwned (h : Fin H) (v : GlobalNodeID) : Bool := decide (v ∈ g.masters h)

def isLocal (h : Fin H) (v : GlobalNodeID) : Bool :=
  decide (v ∈ g.masters h ∨ v ∈ g.mirrors h)

/-- A node of the graph: some host masters it. -/
def IsNode (v : GlobalNodeID) : Prop := v ∈ g.masters (g.getHostID v)

instance (v : GlobalNodeID) : Decidable (g.IsNode v) := by
  unfold IsNode
  infer_instance

@[simp] theorem isOwned_iff {h : Fin H} {v : GlobalNodeID} :
    g.isOwned h v = true ↔ v ∈ g.masters h := by simp [isOwned]

@[simp] theorem isOwned_eq_false_iff {h : Fin H} {v : GlobalNodeID} :
    g.isOwned h v = false ↔ v ∉ g.masters h := by simp [isOwned]

@[simp] theorem isLocal_iff {h : Fin H} {v : GlobalNodeID} :
    g.isLocal h v = true ↔ v ∈ g.masters h ∨ v ∈ g.mirrors h := by simp [isLocal]

variable {g}

theorem isNode_of_master {h : Fin H} {v : GlobalNodeID} (hv : v ∈ g.masters h) : g.IsNode v := by
  have hh := g.host_of_master hv
  rwa [IsNode, hh]

theorem isNode_iff {v : GlobalNodeID} : g.IsNode v ↔ ∃ h, v ∈ g.masters h :=
  ⟨fun hv => ⟨_, hv⟩, fun ⟨_, hv⟩ => isNode_of_master hv⟩

theorem master_iff {h : Fin H} {v : GlobalNodeID} (hv : g.IsNode v) :
    v ∈ g.masters h ↔ g.getHostID v = h :=
  ⟨g.host_of_master, fun hh => hh ▸ hv⟩

theorem not_master_of_mirror {h : Fin H} {v : GlobalNodeID} (hv : v ∈ g.mirrors h) :
    v ∉ g.masters h := fun hm => g.mirror_remote hv (g.host_of_master hm)

theorem edge_isNode {v : GlobalNodeID} {e : OutEdge} (hv : g.IsNode v) (he : e ∈ g.edges v) :
    g.IsNode e.edgeDst := by
  rcases g.edge_local hv he with hm | hm
  · exact isNode_of_master hm
  · exact g.mirror_mastered hm

/-- A destination that the host does not own is one of its mirrors. -/
theorem edge_mirror {h : Fin H} {v : GlobalNodeID} {e : OutEdge} (hv : v ∈ g.masters h)
    (he : e ∈ g.edges v) (hn : e.edgeDst ∉ g.masters h) : e.edgeDst ∈ g.mirrors h :=
  (g.edge_local hv he).resolve_left hn

end NetworkGraph

/-- A collection that misses an id is counted by a 64-bit number. -/
theorem card_lt_of_notMem {S : Finset GlobalNodeID} {v : GlobalNodeID} (hv : v ∉ S) :
    S.card < 2 ^ 64 := by
  have hle : (insert v S).card ≤ (Finset.range (2 ^ 64)).card := by
    apply Finset.card_le_card_of_injOn UInt64.toNat
    · intro w _
      exact Finset.mem_coe.mpr (Finset.mem_range.mpr w.toNat_lt)
    · intro a _ b _ hab
      exact UInt64.toNat_inj.mp hab
  rw [Finset.card_insert_of_notMem hv, Finset.card_range] at hle
  exact hle

def tradeEdge (t : Types) (u v : GlobalNodeID) (a : ℚ) : OutEdge := ⟨v, ⟨u, v, t, a, 0⟩⟩

/-- A chain of trades over two hosts: node 1 sells 5 to node 2, which sells 3 to node 3. The middle
node has a host of its own. -/
def chainGraph : NetworkGraph 2 where
  masters h := if h = 0 then [1, 3] else [2]
  mirrors h := if h = 0 then [2] else [1, 3]
  getHostID v := if v = 2 then 1 else 0
  edges v :=
    if v = 1 then [tradeEdge .sale 1 2 5]
    else if v = 2 then [tradeEdge .purchase 2 1 5, tradeEdge .sale 2 3 3]
    else if v = 3 then [tradeEdge .purchase 3 2 3]
    else []
  masters_nodup h := by fin_cases h <;> decide
  host_of_master {h v} hv := by
    fin_cases h <;> simp at hv
    · rcases hv with rfl | rfl <;> decide
    · simp [hv]
  mirror_mastered {h v} hv := by
    fin_cases h <;> simp at hv
    · simp [hv]
    · rcases hv with rfl | rfl <;> decide
  mirror_remote {h v} hv := by
    fin_cases h <;> simp at hv
    · simp [hv]
    · rcases hv with rfl | rfl <;> decide
  edge_local {h v e} hv he := by
    fin_cases h <;> simp at hv
    · rcases hv with rfl | rfl <;> simp [tradeEdge] at he <;> simp [he]
    · simp [hv, tradeEdge] at he
      rcases he with rfl | rfl <;> simp

theorem chainGraph_node {v : GlobalNodeID} (hv : chainGraph.IsNode v) : v = 1 ∨ v = 2 ∨ v = 3 := by
  by_cases h2 : v = 2
  · exact Or.inr (Or.inl h2)
  · have hm : v ∈ chainGraph.masters 0 := by simpa [NetworkGraph.IsNode, chainGraph, h2] using hv
    have h13 : v = 1 ∨ v = 3 := by simpa [chainGraph] using hm
    exact h13.imp_right Or.inr

/-- The node records one host holds, masters and mirrors. -/
abbrev HostData := GlobalNodeID → NodeData

abbrev Store (H : ℕ) := Fin H → HostData

/-- Change one local record, leaving the others alone. -/
def HostData.modify (d : HostData) (v : GlobalNodeID) (f : NodeData → NodeData) : HostData :=
  Function.update d v (f (d v))

@[simp] theorem HostData.modify_self (d : HostData) (v : GlobalNodeID) (f : NodeData → NodeData) :
    d.modify v f v = f (d v) := by simp [HostData.modify]

theorem HostData.modify_of_ne (d : HostData) {v w : GlobalNodeID} (f : NodeData → NodeData)
    (h : w ≠ v) : d.modify v f w = d w := by simp [HostData.modify, h]

end Wf4
