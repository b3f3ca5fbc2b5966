import GraphLogSketch.Library.GreedyCover
import GraphLogSketch.Library.Threads
import GraphLogSketch.Wf4.EdgeMessage
import GraphLogSketch.Wf4.InfluentialNode
import GraphLogSketch.Wf4.ReachableSetWalk

/-! `GetInfluentialNodes`: the sets that contain the node picked are cleared, their members are taken
out of the counters, on this host at once and on other hosts through maps of counts, and the next
node is picked. -/
namespace Wf4
open ByteWords
variable {H : ℕ}

/-- A map of counts, in the order an iteration visits it. -/
abbrev UpdateMap := List (GlobalNodeID × UInt64)

/-- `try_emplace_l`: count a key once more, or emplace it with 1. -/
def UpdateMap.tryEmplace (v : GlobalNodeID) : UpdateMap → UpdateMap
  | [] => [(v, 1)]
  | u :: us => if u.1 = v then (u.1, u.2 + 1) :: us else u :: tryEmplace v us

def serializeMap (updates : UpdateMap) : List UInt8 :=
  encodeWords (UInt64.ofNat updates.length :: updates.flatMap fun u => [u.1, u.2])

def updateMessage (updates : UpdateMap) : List UInt8 :=
  if serializeMap updates = [] then fillerMessage else serializeMap updates

/-- The updates the receiver goes through. -/
def incomingUpdates (message : List UInt8) : UpdateMap :=
  if message.length < 16 then []
  else (List.range (wordAt message 0).toNat).map fun i =>
    (wordAt message (8 + 16 * i), wordAt message (8 + 16 * i + 8))

/-- `atomicSubtract` on the frequency of a node. -/
def HostData.lower (d : HostData) (u : GlobalNodeID × UInt64) : HostData :=
  d.modify u.1 fun n => { n with frequency := n.frequency - u.2 }

/-- What a host holds: its records, the counts it has for other hosts, and its sets. -/
structure InfluenceHost (H n : ℕ) where
  data : HostData
  remoteUpdates : Fin H → UpdateMap
  sets : Fin n → Finset GlobalNodeID

/-- A call of `RemoveReachableSetsWithInfluentialNode`, with the members still to visit. -/
inductive Remover where
  | waiting
  | running (rest : List GlobalNodeID)
  | finished

/-- A host while its sets are removed. -/
structure Removing (H n : ℕ) where
  host : InfluenceHost H n
  removers : Fin n → Remover

namespace Removing
variable {n : ℕ}

def setRemover (s : Removing H n) (i : Fin n) (r : Remover) : Removing H n :=
  { s with removers := Function.update s.removers i r }

/-- A member of a cleared set is taken out of its counter, or counted for the host that has it. -/
def drop (g : NetworkGraph H) (h : Fin H) (v : GlobalNodeID) (s : Removing H n) : Removing H n :=
  if g.isOwned h v then { s with host := { s.host with data := s.host.data.lower (v, 1) } }
  else
    { s with
      host := { s.host with
        remoteUpdates := Function.update s.host.remoteUpdates (g.getHostID v)
          (UpdateMap.tryEmplace v (s.host.remoteUpdates (g.getHostID v))) } }

def clear (i : Fin n) (s : Removing H n) : Removing H n :=
  { s with host := { s.host with sets := Function.update s.host.sets i ∅ } }

end Removing

/-- The next step of the thread that processes the set `i`; `order` is the order in which an
iteration visits the set. -/
def removeReachableSet {n : ℕ} (g : NetworkGraph H) (h : Fin H) (influentialNode : GlobalNodeID)
    (order : Fin n → List GlobalNodeID) (i : Fin n) (s : Removing H n) : Removing H n :=
  match s.removers i with
  | .waiting =>
    if influentialNode ∈ s.host.sets i then s.setRemover i (.running (order i))
    else s.setRemover i .finished
  | .running (v :: rest) => (s.drop g h v).setRemover i (.running rest)
  | .running [] => (s.clear i).setRemover i .finished
  | .finished => s

def startRemoving {n : ℕ} (s : InfluenceHost H n) : Removing H n := ⟨s, fun _ => .waiting⟩

section Removal
variable {n : Fin H → ℕ}

/-- One round of removals on all hosts: the members of each set, the entries of each map and the
updates of each message are taken in some order. -/
structure Removal (g : NetworkGraph H) (picked : Fin H → GlobalNodeID)
    (s : ∀ h, InfluenceHost H (n h)) where
  order : ∀ h, Fin (n h) → List GlobalNodeID
  order_enumerates : ∀ h i, Enumerates (order h i) ((s h).sets i)
  removed : ∀ h, Removing H (n h)
  run : ∀ h, Threads.Run (List.finRange (n h)) (removeReachableSet g h (picked h) (order h))
    (startRemoving (s h)) (removed h)
  run_end : ∀ h i, (removed h).removers i = .finished
  visited : Fin H → Fin H → UpdateMap
  visited_perm : ∀ h k, (visited h k).Perm ((removed h).host.remoteUpdates k)
  applied : Fin H → Fin H → UpdateMap
  applied_perm : ∀ h k, (applied h k).Perm (incomingUpdates (updateMessage (visited h k)))

variable {g : NetworkGraph H} {picked : Fin H → GlobalNodeID} {s : ∀ h, InfluenceHost H (n h)}

/-- The updates a host applies, sender after sender. -/
def Removal.updates (r : Removal g picked s) (k : Fin H) : UpdateMap :=
  (List.finRange H).flatMap fun h => if h = k then [] else r.applied h k

/-- The hosts after the round; the maps that were sent are empty again. -/
def Removal.after (r : Removal g picked s) : ∀ h, InfluenceHost H (n h) := fun k =>
  { data := (r.updates k).foldl HostData.lower (r.removed k).host.data
    remoteUpdates := fun h => if h = k then (r.removed k).host.remoteUpdates h else []
    sets := (r.removed k).host.sets }

end Removal

section Selection
variable {n : Fin H → ℕ}

def influenceStore (s : ∀ h, InfluenceHost H (n h)) : Store H := fun h => (s h).data

/-- The hosts when `GetInfluentialNodes` is called. -/
def startSelection (store : Store H) (sets : ∀ h, Fin (n h) → Finset GlobalNodeID) :
    ∀ h, InfluenceHost H (n h) := fun h => ⟨store h, fun _ => [], sets h⟩

/-- `GetInfluentialNodes` on all hosts, with what the hosts picked, latest first. -/
inductive Selection (g : NetworkGraph H) (start : ∀ h, InfluenceHost H (n h)) :
    List (Fin H → GlobalNodeID) → (∀ h, InfluenceHost H (n h)) → Prop
  | first (c : PickChoice g) :
      Selection g start [getMostInfluentialNode c (influenceStore start)] start
  | next {p : Fin H → GlobalNodeID} {ps : List (Fin H → GlobalNodeID)}
      {s : ∀ h, InfluenceHost H (n h)} (hs : Selection g start (p :: ps) s) (r : Removal g p s)
      (c : PickChoice g) :
      Selection g start (getMostInfluentialNode c (influenceStore r.after) :: p :: ps) r.after

/-- The vector a host returns. -/
def influentialNodes (picks : List (Fin H → GlobalNodeID)) (h : Fin H) : List GlobalNodeID :=
  picks.reverse.map fun p => p h

/-- The sets of all hosts as one family. -/
def family (s : ∀ h, InfluenceHost H (n h)) (x : (h : Fin H) × Fin (n h)) : Finset GlobalNodeID :=
  (s x.1).sets x.2

end Selection
end Wf4
