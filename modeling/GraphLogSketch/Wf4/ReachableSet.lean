import GraphLogSketch.Library.Search
import GraphLogSketch.Wf4.Graph
import Mathlib.Data.FinEnum
import Mathlib.Data.Set.Card

/-! One reverse reachable set on its way through the hosts, and what a host does with it: it expands
the nodes it masters and leaves the others on the frontier. -/
namespace Wf4
open GraphSearch
variable {H : ℕ}

structure PartialReachableSet where
  id : UInt64
  ownerHost : UInt64
  partialReachableSet : Finset GlobalNodeID
  frontier : Finset GlobalNodeID
  deriving DecidableEq

/-- The identity of a host in the network, `net.ID`. -/
def hostId (h : Fin H) : UInt32 := UInt32.ofNat h.val

namespace PartialReachableSet

def Finished (s : PartialReachableSet) : Bool := decide (s.frontier = ∅)

/-- A finished set goes to its owner, another one to the host of some frontier node. -/
def nextHost (g : NetworkGraph H) (finish : Bool) (begin : GlobalNodeID)
    (s : PartialReachableSet) : UInt32 :=
  if finish || s.Finished then s.ownerHost.toUInt32 else hostId (g.getHostID begin)

end PartialReachableSet

/-- The node with index `draw` among the host's masters becomes the root of a set. -/
def generateSeedNode (g : NetworkGraph H) (h : Fin H) (id : UInt64)
    (draw : Fin (g.masters h).length) : PartialReachableSet :=
  ⟨id, (hostId h).toUInt64, {(g.masters h).get draw}, {(g.masters h).get draw}⟩

/-- The expansion of a node, with the outcome of the draw for each of its edges. -/
structure Expansion where
  node : GlobalNodeID
  draws : List ℚ

/-- The destinations of the edges that are live: their draw is at most their weight. -/
def liveSuccessors (g : NetworkGraph H) (x : Expansion) : List GlobalNodeID :=
  (((g.edges x.node).zip x.draws).filter fun p => p.2 ≤ p.1.data.weight).map fun p => p.1.edgeDst

/-- The variables of `ContinueRandomReversibleReachableSet`. The counted nodes are those whose
frequency was raised; the log of the expansions is there for the proofs only. -/
structure Walk where
  reached : Finset GlobalNodeID
  localFrontier : List GlobalNodeID
  remoteFrontier : Finset GlobalNodeID
  counted : List GlobalNodeID
  log : List Expansion

/-- The outcomes of the draws of one call: they may depend on how many nodes were expanded before,
on the node and on the edge. -/
abbrev Draws := ℕ → GlobalNodeID → ℕ → ℚ

section Walk
variable (g : NetworkGraph H) (h : Fin H)

def reach (w : Walk) (gid : GlobalNodeID) : Walk :=
  if gid ∈ w.reached then w
  else if g.isOwned h gid then
    { w with reached := insert gid w.reached, localFrontier := w.localFrontier ++ [gid] }
  else { w with reached := insert gid w.reached, remoteFrontier := insert gid w.remoteFrontier }

def examineEdge (w : Walk) (p : OutEdge × ℚ) : Walk :=
  if p.2 ≤ p.1.data.weight then reach g h w p.1.edgeDst else w

def nodeDraws (dist : Draws) (n : ℕ) (gid : GlobalNodeID) : List ℚ :=
  (List.range (g.edges gid).length).map (dist n gid)

@[simp] theorem nodeDraws_length (dist : Draws) (n : ℕ) (gid : GlobalNodeID) :
    (nodeDraws g dist n gid).length = (g.edges gid).length := by simp [nodeDraws]

/-- The body of the loop, after `gid` was taken from the queue. -/
def visit (dist : Draws) (finish : Bool) (gid : GlobalNodeID) (w : Walk) : Walk :=
  if finish then { w with counted := w.counted ++ [gid] }
  else
    let draws := nodeDraws g dist w.log.length gid
    ((g.edges gid).zip draws).foldl (examineEdge g h)
      { w with counted := w.counted ++ [gid], log := w.log ++ [⟨gid, draws⟩] }

end Walk

/-- Nodes not reached yet and nodes in the queue. -/
noncomputable def Walk.size (w : Walk) : ℕ :=
  Set.ncard {v | v ∉ w.reached} + w.localFrontier.length

section Size
variable {g : NetworkGraph H} {h : Fin H}

theorem reach_size (w : Walk) (gid : GlobalNodeID) : (reach g h w gid).size ≤ w.size := by
  have hsub : {v | v ∉ insert gid w.reached} ⊆ {v | v ∉ w.reached} :=
    fun v hv hx => hv (Finset.mem_insert_of_mem hx)
  unfold reach Walk.size
  split_ifs with hr ho
  · exact le_rfl
  · have hlt : Set.ncard {v | v ∉ insert gid w.reached} < Set.ncard {v | v ∉ w.reached} := by
      apply Set.ncard_lt_ncard _ (Set.toFinite _)
      exact ⟨hsub, fun hsup => hsup hr (Finset.mem_insert_self gid _)⟩
    simp only [List.length_append, List.length_singleton]
    omega
  · exact Nat.add_le_add_right (Set.ncard_le_ncard hsub (Set.toFinite _)) _

theorem foldl_examineEdge_size (ps : List (OutEdge × ℚ)) (w : Walk) :
    (ps.foldl (examineEdge g h) w).size ≤ w.size := by
  induction ps generalizing w with
  | nil => exact le_rfl
  | cons p ps ih =>
    rw [List.foldl_cons]
    refine (ih _).trans ?_
    unfold examineEdge
    split_ifs
    · exact reach_size w _
    · exact le_rfl

theorem visit_size (dist : Draws) (finish : Bool) (gid : GlobalNodeID) (w : Walk) :
    (visit g h dist finish gid w).size ≤ w.size := by
  unfold visit
  split_ifs
  · exact le_rfl
  · exact (foldl_examineEdge_size _ _).trans le_rfl

end Size

/-- The loop over the queue. -/
def walkLocal (g : NetworkGraph H) (h : Fin H) (dist : Draws) (finish : Bool) (w : Walk) : Walk :=
  match _hq : w.localFrontier with
  | [] => w
  | gid :: rest =>
    walkLocal g h dist finish (visit g h dist finish gid { w with localFrontier := rest })
termination_by w.size
decreasing_by
  refine (visit_size dist finish gid _).trans_lt ?_
  simp [Walk.size, _hq]

/-- What a call does to its set, which frequencies it raises, and its expansions. -/
structure Continued where
  set : PartialReachableSet
  counted : List GlobalNodeID
  log : List Expansion

/-- `ContinueRandomReversibleReachableSet`; `frontier` is an enumeration of the set's frontier. -/
def continueSet (g : NetworkGraph H) (h : Fin H) (dist : Draws) (finish : Bool)
    (frontier : List GlobalNodeID) (s : PartialReachableSet) : Continued :=
  let w := walkLocal g h dist finish
    ⟨s.partialReachableSet, frontier.filter fun v => g.isOwned h v,
      (frontier.filter fun v => !g.isOwned h v).toFinset, [], []⟩
  if finish then
    ⟨{ s with partialReachableSet := w.reached \ w.remoteFrontier, frontier := ∅ },
      w.counted, w.log⟩
  else
    ⟨{ s with partialReachableSet := w.reached, frontier := w.remoteFrontier }, w.counted, w.log⟩

end Wf4
