import GraphLogSketch.Wf4.Graph

/-! The two trade counters, the state of a host during trading, and the Gluon synchronisations the
program asks for: copying marked masters, and adding marked mirrors up before copying. -/
namespace Wf4

/-- The counters with a dirty bitset and a synchronisation of their own. -/
inductive Counter where
  | sold | bought
  deriving DecidableEq, Repr

namespace NodeData

def get (n : NodeData) : Counter → ℚ
  | .sold => n.sold
  | .bought => n.bought

def set (n : NodeData) (c : Counter) (x : ℚ) : NodeData :=
  match c with
  | .sold => { n with sold := x }
  | .bought => { n with bought := x }

/-- `galois::atomicAdd` on a counter. -/
def atomicAdd (c : Counter) (x : ℚ) (n : NodeData) : NodeData := n.set c (n.get c + x)

def atomicSubtract (c : Counter) (x : ℚ) (n : NodeData) : NodeData := n.set c (n.get c - x)

def atomicMin (c : Counter) (x : ℚ) (n : NodeData) : NodeData := n.set c (min (n.get c) x)

variable (n : NodeData) (c c' : Counter) (x : ℚ)

@[simp] theorem get_set_self : (n.set c x).get c = x := by cases c <;> rfl

theorem get_set_of_ne (h : c' ≠ c) : (n.set c x).get c' = n.get c' := by
  cases c <;> cases c' <;> first | rfl | exact absurd rfl h

@[simp] theorem set_desired : (n.set c x).desired = n.desired := by cases c <;> rfl

@[simp] theorem atomicAdd_get_self : (n.atomicAdd c x).get c = n.get c + x := get_set_self ..

@[simp] theorem atomicSubtract_get_self : (n.atomicSubtract c x).get c = n.get c - x :=
  get_set_self ..

@[simp] theorem atomicMin_get_self : (n.atomicMin c x).get c = min (n.get c) x := get_set_self ..

@[simp] theorem cancel_get : n.cancel.get c = 0 := by cases c <;> rfl

@[simp] theorem zero_get : NodeData.zero.get c = 0 := by cases c <;> rfl

end NodeData

/-- The local records of a host and its two dirty bitsets. -/
structure HostState where
  data : HostData
  bitset : Counter → GlobalNodeID → Bool

namespace HostState

def modify (s : HostState) (v : GlobalNodeID) (f : NodeData → NodeData) : HostState :=
  { s with data := s.data.modify v f }

/-- `bitset.set(lid)`. -/
def mark (s : HostState) (c : Counter) (v : GlobalNodeID) : HostState :=
  { s with bitset := fun c' w => if c' = c ∧ w = v then true else s.bitset c' w }

/-- `resize` followed by `reset`. -/
def clearBits (s : HostState) (c : Counter) : HostState :=
  { s with bitset := fun c' w => if c' = c then false else s.bitset c' w }

variable (s : HostState) (c c' : Counter) (v w : GlobalNodeID) (f : NodeData → NodeData)

@[simp] theorem modify_bitset : (s.modify v f).bitset = s.bitset := rfl

@[simp] theorem modify_data_self : (s.modify v f).data v = f (s.data v) := s.data.modify_self v f

theorem modify_data_of_ne (h : w ≠ v) : (s.modify v f).data w = s.data w :=
  s.data.modify_of_ne f h

@[simp] theorem mark_data : (s.mark c v).data = s.data := rfl

theorem mark_bitset : (s.mark c v).bitset c' w = (decide (c' = c ∧ w = v) || s.bitset c' w) := by
  by_cases h : c' = c ∧ w = v <;> simp [mark, h]

@[simp] theorem clearBits_data : (s.clearBits c).data = s.data := rfl

@[simp] theorem clearBits_bitset_self : (s.clearBits c).bitset c v = false := by simp [clearBits]

end HostState

abbrev Hosts (H : ℕ) := Fin H → HostState

section Sync
variable {H : ℕ} (g : NetworkGraph H)

/-- Copy the flagged masters to their mirrors. -/
def broadcast (flag : GlobalNodeID → Bool) (c : Counter) (s : Hosts H) : Hosts H := fun h =>
  { s h with data := fun v =>
      if v ∈ g.mirrors h ∧ flag v then
        ((s h).data v).set c (((s (g.getHostID v)).data v).get c)
      else (s h).data v }

/-- `Reduce_set`: a master whose bit is set is copied to all its mirrors. -/
def reduceSet (c : Counter) (s : Hosts H) : Hosts H :=
  broadcast g (fun v => (s (g.getHostID v)).bitset c v) c s

/-- The sum of the marked mirrors of a node. -/
def mirrorSum (c : Counter) (s : Hosts H) (v : GlobalNodeID) : ℚ :=
  ∑ h : Fin H, if v ∈ g.mirrors h ∧ (s h).bitset c v then ((s h).data v).get c else 0

/-- Marked mirrors are added to their masters and reset. -/
def addMirrors (c : Counter) (s : Hosts H) : Hosts H := fun h =>
  { s h with data := fun v =>
      if v ∈ g.masters h then ((s h).data v).atomicAdd c (mirrorSum g c s v)
      else if v ∈ g.mirrors h ∧ (s h).bitset c v then ((s h).data v).set c 0
      else (s h).data v }

/-- The master has its bit set or received a contribution. -/
def Touched (c : Counter) (s : Hosts H) (v : GlobalNodeID) : Prop :=
  (s (g.getHostID v)).bitset c v = true ∨ ∃ h, v ∈ g.mirrors h ∧ (s h).bitset c v = true

instance (c : Counter) (s : Hosts H) (v : GlobalNodeID) : Decidable (Touched g c s v) := by
  unfold Touched
  infer_instance

/-- `Reduce_add`: mirrors are added up, then every touched master is copied back. -/
def reduceAdd (c : Counter) (s : Hosts H) : Hosts H :=
  broadcast g (fun v => decide (Touched g c s v)) c (addMirrors g c s)

variable {g} {c c' : Counter} {s : Hosts H} {h : Fin H} {v : GlobalNodeID}
  {flag : GlobalNodeID → Bool}

theorem broadcast_of_not_mirror (hv : v ∉ g.mirrors h) :
    (broadcast g flag c s h).data v = (s h).data v := by simp [broadcast, hv]

theorem broadcast_of_not_flagged (hf : flag v = false) :
    (broadcast g flag c s h).data v = (s h).data v := by simp [broadcast, hf]

theorem broadcast_of_flagged (hv : v ∈ g.mirrors h) (hf : flag v = true) :
    (broadcast g flag c s h).data v =
      ((s h).data v).set c (((s (g.getHostID v)).data v).get c) := by simp [broadcast, hv, hf]

@[simp] theorem broadcast_bitset : (broadcast g flag c s h).bitset = (s h).bitset := rfl

theorem broadcast_get_of_ne (hc : c' ≠ c) :
    ((broadcast g flag c s h).data v).get c' = ((s h).data v).get c' := by
  unfold broadcast
  dsimp only
  split_ifs
  · exact NodeData.get_set_of_ne _ _ _ _ hc
  · rfl

theorem broadcast_desired :
    ((broadcast g flag c s h).data v).desired = ((s h).data v).desired := by
  unfold broadcast
  dsimp only
  split_ifs <;> simp

/-- A mirror takes over its master's counter, if the master is marked. -/
theorem reduceSet_mirror (hv : v ∈ g.mirrors h) : ((reduceSet g c s h).data v).get c =
    if (s (g.getHostID v)).bitset c v then ((s (g.getHostID v)).data v).get c
    else ((s h).data v).get c := by
  unfold reduceSet broadcast
  by_cases hbit : (s (g.getHostID v)).bitset c v = true <;> simp [hv, hbit]

theorem reduceSet_get_of_ne (hc : c' ≠ c) :
    ((reduceSet g c s h).data v).get c' = ((s h).data v).get c' := broadcast_get_of_ne hc

@[simp] theorem addMirrors_bitset : (addMirrors g c s h).bitset = (s h).bitset := rfl

theorem addMirrors_get_of_ne (hc : c' ≠ c) :
    ((addMirrors g c s h).data v).get c' = ((s h).data v).get c' := by
  unfold addMirrors
  dsimp only
  split_ifs
  · exact NodeData.get_set_of_ne _ _ _ _ hc
  · exact NodeData.get_set_of_ne _ _ _ _ hc
  · rfl

theorem addMirrors_desired :
    ((addMirrors g c s h).data v).desired = ((s h).data v).desired := by
  unfold addMirrors NodeData.atomicAdd
  dsimp only
  split_ifs <;> simp

theorem reduceAdd_get_of_ne (hc : c' ≠ c) :
    ((reduceAdd g c s h).data v).get c' = ((s h).data v).get c' :=
  (broadcast_get_of_ne hc).trans (addMirrors_get_of_ne hc)

theorem reduceAdd_desired : ((reduceAdd g c s h).data v).desired = ((s h).data v).desired :=
  broadcast_desired.trans addMirrors_desired

@[simp] theorem reduceAdd_bitset : (reduceAdd g c s h).bitset = (s h).bitset := rfl

theorem reduceAdd_master (hv : v ∈ g.masters h) :
    ((reduceAdd g c s h).data v).get c = ((s h).data v).get c + mirrorSum g c s v := by
  have hm : v ∉ g.mirrors h := fun hm => NetworkGraph.not_master_of_mirror hm hv
  rw [reduceAdd, broadcast_of_not_mirror hm]
  simp [addMirrors, hv]

theorem reduceAdd_mirror_of_touched (hv : v ∈ g.mirrors h) (ht : Touched g c s v) :
    ((reduceAdd g c s h).data v).get c =
      ((reduceAdd g c s (g.getHostID v)).data v).get c := by
  have hm := g.mirror_mastered hv
  have hn : v ∉ g.mirrors (g.getHostID v) := fun hx => NetworkGraph.not_master_of_mirror hx hm
  rw [reduceAdd, broadcast_of_flagged hv (by simpa using ht), broadcast_of_not_mirror hn,
    NodeData.get_set_self]

/-- An untouched node keeps its counter on its master and on its mirrors. -/
theorem reduceAdd_of_not_touched (ht : ¬ Touched g c s v) :
    ((reduceAdd g c s h).data v).get c = ((s h).data v).get c := by
  have hbits : ∀ k, ¬ (v ∈ g.mirrors k ∧ (s k).bitset c v = true) := by
    intro k hk
    exact ht (Or.inr ⟨k, hk⟩)
  have hsum : mirrorSum g c s v = 0 := by simp [mirrorSum, hbits]
  rw [reduceAdd, broadcast_of_not_flagged (by simpa using ht)]
  unfold addMirrors
  dsimp only
  rw [if_neg (hbits h), hsum]
  split_ifs
  · simp
  · rfl

end Sync
end Wf4
