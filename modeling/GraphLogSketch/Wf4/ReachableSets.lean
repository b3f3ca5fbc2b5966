import GraphLogSketch.Wf4.PartialSetMessage
import Mathlib.Algebra.BigOperators.Group.Multiset.Basic
import Mathlib.Algebra.BigOperators.Pi

/-! `GetRandomReverseReachableSets` on all hosts: epochs in which every host works on the sets it
holds and the unfinished ones travel on, and the clean-up that brings every set to its owner. -/
namespace Wf4
variable {H : ℕ}

/-- The call on all hosts. Hosts are counted by a `uint32_t`, nodes by a `uint64_t`. -/
structure Generation (H : ℕ) where
  graph : NetworkGraph H
  globalSets : UInt64
  hosts_pos : 0 < H
  hosts_lt : H < 2 ^ 32
  node_bound : ∃ v, ¬ graph.IsNode v

namespace Generation
variable (p : Generation H)

/-- The number of sets a host owns; the last host takes the remainder. -/
def hostSets (h : Fin H) : UInt64 :=
  if h.val = H - 1 then
    p.globalSets - UInt64.ofNat (H - 1) * (p.globalSets / UInt64.ofNat H)
  else p.globalSets / UInt64.ofNat H

/-- The indices of the sets a host owns. -/
def slots (h : Fin H) : List UInt64 := (List.range (p.hostSets h).toNat).map UInt64.ofNat

/-- An outcome of the draws of all root nodes, as indices among the masters of a host. -/
abbrev Seeds := (h : Fin H) → UInt64 → Fin (p.graph.masters h).length

variable {p}

def Seeds.root (seeds : p.Seeds) (h : Fin H) (i : UInt64) : GlobalNodeID :=
  (p.graph.masters h).get (seeds h i)

end Generation

/-- What identifies a set on all hosts. -/
def PartialReachableSet.key (s : PartialReachableSet) : UInt64 × UInt64 := (s.ownerHost, s.id)

def slotKey (h : Fin H) (i : UInt64) : UInt64 × UInt64 := ((hostId h).toUInt64, i)

/-- The hosts while sets are generated: the node records, the sets each host has to work on, those
it will send to a host, and for each slot of its result the values stored there, latest first. The
log of the expansions of a set is there for the proofs only. -/
structure Generating (H : ℕ) where
  store : Store H
  partialSets : Fin H → Multiset PartialReachableSet
  remotePartialSets : Fin H → UInt32 → Multiset PartialReachableSet
  reachableSets : Fin H → UInt64 → List (Finset GlobalNodeID)
  log : UInt64 × UInt64 → List Expansion

/-- Raise the frequency of every node of the list. -/
def HostData.raise (d : HostData) (counted : List GlobalNodeID) : HostData :=
  counted.foldl (fun d v => d.modify v fun n => { n with frequency := n.frequency + 1 }) d

namespace Generating

def take (h : Fin H) (rest : Multiset PartialReachableSet) (t : Generating H) : Generating H :=
  { t with partialSets := Function.update t.partialSets h rest }

/-- The effects of a call on the frequencies of its host and on the log. -/
def record (h : Fin H) (c : Continued) (t : Generating H) : Generating H :=
  { t with
    store := Function.update t.store h ((t.store h).raise c.counted)
    log := Function.update t.log c.set.key (t.log c.set.key ++ c.log) }

def keep (h : Fin H) (s : PartialReachableSet) (t : Generating H) : Generating H :=
  { t with
    reachableSets := Function.update t.reachableSets h
      (Function.update (t.reachableSets h) s.id
        (s.partialReachableSet :: t.reachableSets h s.id)) }

def send (h : Fin H) (k : UInt32) (s : PartialReachableSet) (t : Generating H) : Generating H :=
  { t with
    remotePartialSets := Function.update t.remotePartialSets h
      (Function.update (t.remotePartialSets h) k (s ::ₘ t.remotePartialSets h k)) }

end Generating

/-- What happens to a set after the call: its owner stores it when it is done, and otherwise it is
put aside for its next host. -/
def routeSet (g : NetworkGraph H) (h : Fin H) (finish : Bool) (begin : GlobalNodeID)
    (c : Continued) (t : Generating H) : Generating H :=
  if c.set.ownerHost = (hostId h).toUInt64 ∧ (finish || c.set.Finished) = true then
    (t.record h c).keep h c.set
  else (t.record h c).send h (c.set.nextHost g finish begin) c.set

/-- Some host works on one of its sets: the draws, the order in which the frontier is visited and
the node that begins the new frontier are arbitrary. -/
inductive GenerateStep (g : NetworkGraph H) (finish : Bool) : Generating H → Generating H → Prop
  | mk {t : Generating H} {h : Fin H} {s : PartialReachableSet}
      {rest : Multiset PartialReachableSet} {frontier : List GlobalNodeID} {begin : GlobalNodeID}
      (dist : Draws) (hs : t.partialSets h = s ::ₘ rest) (hf : Enumerates frontier s.frontier)
      (hb : (continueSet g h dist finish frontier s).set.frontier ≠ ∅ →
        begin ∈ (continueSet g h dist finish frontier s).set.frontier) :
      GenerateStep g finish t
        (routeSet g h finish begin (continueSet g h dist finish frontier s) (t.take h rest))

/-- `GenerateRandomReversibleReachableSets` on all hosts. -/
def GenerateSets (g : NetworkGraph H) (finish : Bool) (t t' : Generating H) : Prop :=
  Relation.ReflTransGen (GenerateStep g finish) t t' ∧ ∀ h, t'.partialSets h = 0

/-- The sets put aside at `h` for `k` were sent in one message, from which `k` read `incoming`. -/
def Delivers (t : Generating H) (h k : Fin H) (incoming : List PartialReachableSet) : Prop :=
  ∃ (sets : List PartialReachableSet) (message : List UInt8),
    (sets : Multiset PartialReachableSet) = t.remotePartialSets h (hostId k) ∧
      SendsSets sets message ∧ incomingSets message = some incoming

/-- `ExchangePartialSets` on all hosts. -/
inductive ExchangePartialSets (t : Generating H) : Generating H → Prop
  | mk {incoming : Fin H → Fin H → List PartialReachableSet}
      (hd : ∀ k h, h ≠ k → Delivers t h k (incoming k h)) :
      ExchangePartialSets t
        { t with
          partialSets := fun k => ∑ h ∈ Finset.univ.erase k, ↑(incoming k h)
          remotePartialSets := fun _ _ => 0 }

inductive Epochs (g : NetworkGraph H) : ℕ → Generating H → Generating H → Prop
  | zero (t : Generating H) : Epochs g 0 t t
  | succ {n : ℕ} {t t₁ t₂ t₃ : Generating H} (h : Epochs g n t t₁)
      (hgen : GenerateSets g false t₁ t₂) (hex : ExchangePartialSets t₂ t₃) :
      Epochs g (n + 1) t t₃

/-- The hosts when the seed nodes are drawn. -/
def startGenerating (p : Generation H) (store : Store H) (seeds : p.Seeds) : Generating H where
  store := store
  partialSets h := ((p.slots h).map fun i => generateSeedNode p.graph h i (seeds h i) : List _)
  remotePartialSets _ _ := 0
  reachableSets _ _ := []
  log _ := []

/-- A run of `GetRandomReverseReachableSets` on all hosts. -/
structure GenerationRun (p : Generation H) (epochs : ℕ) (store : Store H) where
  seeds : p.Seeds
  expanded : Generating H
  cleaned : Generating H
  returned : Generating H
  final : Generating H
  expanding : Epochs p.graph epochs (startGenerating p store seeds) expanded
  cleaning : GenerateSets p.graph true expanded cleaned
  returning : ExchangePartialSets cleaned returned
  storing : GenerateSets p.graph true returned final

/-- The sets a host returns; a slot that was never stored holds the empty set. -/
def GenerationRun.sets {p : Generation H} {epochs : ℕ} {store : Store H}
    (r : GenerationRun p epochs store) (h : Fin H) : List (Finset GlobalNodeID) :=
  (p.slots h).map fun i => (r.final.reachableSets h i).headD ∅

end Wf4
