import GraphLogSketch.Library.FirstMax
import GraphLogSketch.Wf4.Graph

/-! `GetMostInfluentialNode`: every thread of a host keeps the best of its nodes, the host takes the
best of its threads, and every host takes the best of all hosts. -/
namespace Wf4
open FirstMax
variable {H : ℕ}

structure LocalMaxNode where
  maxNode : GlobalNodeID
  maxInfluence : UInt64
  deriving DecidableEq

/-- The constructor without arguments does not set the node, which is whatever was there. -/
def LocalMaxNode.unset (junk : GlobalNodeID) : LocalMaxNode := ⟨junk, 0⟩

/-- The vector of a thread holds at most one candidate. -/
def findLocalMaxNode (d : HostData) (localMaxNode : List LocalMaxNode) (node : GlobalNodeID) :
    List LocalMaxNode :=
  match localMaxNode with
  | [] => [⟨node, (d node).frequency⟩]
  | m :: rest =>
    if m.maxInfluence < (d node).frequency then ⟨node, (d node).frequency⟩ :: rest else m :: rest

def getMaxNode (junk : GlobalNodeID) (nodes : List LocalMaxNode) : LocalMaxNode :=
  nodes.foldl (fun best m => if best.maxInfluence < m.maxInfluence then m else best) (.unset junk)

/-- Every host gets the maximum of every host. -/
def exchangeMostInfluentialNodes (maxes : Fin H → LocalMaxNode) : Fin H → List LocalMaxNode :=
  fun _ => List.ofFn maxes

/-- What is open in a call on all hosts: how the nodes of a host are spread over its threads and in
which order each thread takes them, and what is in the fields that no constructor sets. -/
structure PickChoice (g : NetworkGraph H) where
  threads : Fin H → List (List GlobalNodeID)
  threads_perm : ∀ h, (threads h).flatten.Perm (g.masters h)
  hostJunk : Fin H → GlobalNodeID
  globalJunk : Fin H → GlobalNodeID

section Pick
variable {g : NetworkGraph H} (c : PickChoice g) (store : Store H)

def hostMax (h : Fin H) : LocalMaxNode :=
  getMaxNode (c.hostJunk h)
    ((c.threads h).map fun nodes => nodes.foldl (findLocalMaxNode (store h)) []).flatten

/-- The node each host picks. -/
def getMostInfluentialNode (h : Fin H) : GlobalNodeID :=
  (getMaxNode (c.globalJunk h) (exchangeMostInfluentialNodes (hostMax c store) h)).maxNode

end Pick

def LocalMaxNode.influence (m : LocalMaxNode) : ℕ := m.maxInfluence.toNat

/-- The frequency of a node, as its master has it. -/
def masterFrequency (g : NetworkGraph H) (store : Store H) (v : GlobalNodeID) : ℕ :=
  (store (g.getHostID v) v).frequency.toNat

/-- The candidate a node makes on a host. -/
def candidate (d : HostData) (v : GlobalNodeID) : LocalMaxNode := ⟨v, (d v).frequency⟩

theorem getMaxNode_eq (junk : GlobalNodeID) (nodes : List LocalMaxNode) :
    getMaxNode junk nodes = nodes.foldl (better LocalMaxNode.influence) (.unset junk) := rfl

theorem getMaxNode_of_isFirst {junk : GlobalNodeID} {nodes : List LocalMaxNode} {m : LocalMaxNode}
    (hm : IsFirst LocalMaxNode.influence m nodes) (hpos : 0 < m.influence) :
    getMaxNode junk nodes = m := by
  rw [getMaxNode_eq]
  exact foldl_eq (hm.cons hpos)

theorem getMaxNode_of_zero {junk : GlobalNodeID} {nodes : List LocalMaxNode}
    (h : ∀ m ∈ nodes, m.influence = 0) : getMaxNode junk nodes = .unset junk := by
  rw [getMaxNode_eq]
  exact foldl_eq (isFirst_head fun m hm => (h m hm).le)

theorem getMaxNode_cases (junk : GlobalNodeID) (nodes : List LocalMaxNode) :
    ((∀ m ∈ nodes, m.influence = 0) ∧ getMaxNode junk nodes = .unset junk) ∨
      (0 < (getMaxNode junk nodes).influence ∧
        IsFirst LocalMaxNode.influence (getMaxNode junk nodes) nodes) := by
  by_cases hzero : ∀ m ∈ nodes, m.influence = 0
  · exact Or.inl ⟨hzero, getMaxNode_of_zero hzero⟩
  · right
    obtain ⟨m, hm⟩ := not_forall.mp hzero
    obtain ⟨hmem, hpos⟩ := Classical.not_imp.mp hm
    obtain ⟨a, l, rfl⟩ := List.exists_cons_of_ne_nil (List.ne_nil_of_mem hmem)
    have hfirst : IsFirst LocalMaxNode.influence _ (a :: l) := foldl_isFirst a l
    have hgt := (Nat.pos_of_ne_zero hpos).trans_le (hfirst.le hmem)
    rw [getMaxNode_of_isFirst hfirst hgt]
    exact ⟨hgt, hfirst⟩

theorem findLocalMaxNode_singleton (d : HostData) (m : LocalMaxNode) (v : GlobalNodeID) :
    findLocalMaxNode d [m] v = [better LocalMaxNode.influence m (candidate d v)] := by
  unfold findLocalMaxNode better
  simp only [UInt64.lt_iff_toNat_lt]
  split_ifs with h h' h'
  · rfl
  · exact absurd h h'
  · exact absurd h' h
  · rfl

theorem foldl_findLocalMaxNode (d : HostData) (v : GlobalNodeID) (nodes : List GlobalNodeID) :
    (v :: nodes).foldl (findLocalMaxNode d) [] =
      [(nodes.map (candidate d)).foldl (better LocalMaxNode.influence) (candidate d v)] := by
  have hrun (m : LocalMaxNode) : nodes.foldl (findLocalMaxNode d) [m] =
      [(nodes.map (candidate d)).foldl (better LocalMaxNode.influence) m] := by
    induction nodes generalizing m with
    | nil => rfl
    | cons w nodes ih =>
      rw [List.map_cons, List.foldl_cons, List.foldl_cons, findLocalMaxNode_singleton, ih]
  exact hrun (candidate d v)

/-- The candidate of a thread is the first greatest one of its nodes. -/
theorem thread_isFirst {d : HostData} {nodes : List GlobalNodeID} (hne : nodes ≠ []) :
    ∃ m, nodes.foldl (findLocalMaxNode d) [] = [m] ∧
      IsFirst LocalMaxNode.influence m (nodes.map (candidate d)) := by
  obtain ⟨v, rest, rfl⟩ := List.exists_cons_of_ne_nil hne
  rw [foldl_findLocalMaxNode]
  exact ⟨_, rfl, foldl_isFirst _ _⟩

section Host
variable {g : NetworkGraph H} (c : PickChoice g) (store : Store H) (h : Fin H)

/-- The candidates of all threads of a host. -/
def hostCandidates : List LocalMaxNode :=
  ((c.threads h).map fun nodes => nodes.foldl (findLocalMaxNode (store h)) []).flatten

variable {c store h}

theorem hostCandidates_node {m : LocalMaxNode} (hm : m ∈ hostCandidates c store h) :
    ∃ v ∈ g.masters h, m = candidate (store h) v := by
  obtain ⟨found, hfound, hmem⟩ := List.mem_flatten.mp hm
  obtain ⟨nodes, hnodes, rfl⟩ := List.mem_map.mp hfound
  have hne : nodes ≠ [] := by
    rintro rfl
    simp at hmem
  obtain ⟨r, hr, hfirst⟩ := thread_isFirst (d := store h) hne
  rw [hr, List.mem_singleton] at hmem
  obtain ⟨v, hv, hrv⟩ := List.mem_map.mp hfirst.mem
  exact ⟨v, (c.threads_perm h).mem_iff.mp (List.mem_flatten.mpr ⟨nodes, hnodes, hv⟩),
    hmem.trans hrv.symm⟩

theorem exists_hostCandidate (c : PickChoice g) (store : Store H) {v : GlobalNodeID} (hv : v ∈ g.masters h) :
    ∃ m ∈ hostCandidates c store h, (store h v).frequency.toNat ≤ m.influence := by
  obtain ⟨nodes, hnodes, hmem⟩ := List.mem_flatten.mp ((c.threads_perm h).mem_iff.mpr hv)
  obtain ⟨r, hr, hfirst⟩ := thread_isFirst (d := store h) (List.ne_nil_of_mem hmem)
  refine ⟨r, List.mem_flatten.mpr ⟨_, List.mem_map_of_mem hnodes, ?_⟩, ?_⟩
  · rw [hr]
    exact List.mem_singleton_self r
  · exact hfirst.le (List.mem_map_of_mem hmem)

/-- The maximum of a host: unset when all its counters are zero, else a best master. -/
theorem hostMax_cases (c : PickChoice g) (store : Store H) (h : Fin H) :
    ((∀ v ∈ g.masters h, (store h v).frequency.toNat = 0) ∧ (hostMax c store h).influence = 0) ∨
      ∃ v ∈ g.masters h, hostMax c store h = candidate (store h) v ∧
        0 < (store h v).frequency.toNat ∧
        ∀ w ∈ g.masters h, (store h w).frequency.toNat ≤ (store h v).frequency.toNat := by
  rcases getMaxNode_cases (c.hostJunk h) (hostCandidates c store h) with ⟨hzero, heq⟩ | ⟨hpos, hfirst⟩
  · left
    constructor
    · intro v hv
      obtain ⟨m, hm, hle⟩ := exists_hostCandidate c store hv
      have hm0 := hzero m hm
      omega
    · exact congrArg LocalMaxNode.influence heq
  · right
    obtain ⟨v, hv, hcand⟩ := hostCandidates_node hfirst.mem
    refine ⟨v, hv, hcand, ?_, fun w hw => ?_⟩
    · rw [hcand] at hpos
      exact hpos
    · obtain ⟨m, hm, hle⟩ := exists_hostCandidate c store hw
      have hbest := hfirst.le hm
      rw [hcand] at hbest
      exact hle.trans hbest

end Host

section Global
variable {g : NetworkGraph H} {store : Store H}

theorem masterFrequency_eq {h : Fin H} {v : GlobalNodeID} (hv : v ∈ g.masters h) :
    masterFrequency g store v = (store h v).frequency.toNat := by
  rw [masterFrequency, g.host_of_master hv]

/-- A node that occurs most often, on the first host that has one. -/
structure MostInfluential (g : NetworkGraph H) (frequency : GlobalNodeID → ℕ) (m : GlobalNodeID) :
    Prop where
  node : g.IsNode m
  positive : 0 < frequency m
  most : ∀ v, g.IsNode v → frequency v ≤ frequency m
  first : ∀ v, g.IsNode v → frequency v = frequency m → g.getHostID m ≤ g.getHostID v

theorem getMostInfluentialNode_zero (c : PickChoice g)
    (hzero : ∀ v, g.IsNode v → masterFrequency g store v = 0) (h : Fin H) :
    getMostInfluentialNode c store h = c.globalJunk h := by
  have hall : ∀ m ∈ List.ofFn (hostMax c store), m.influence = 0 := by
    intro m hm
    obtain ⟨k, rfl⟩ := List.mem_ofFn.mp hm
    rcases hostMax_cases c store k with ⟨_, h0⟩ | ⟨v, hv, _, hpos, _⟩
    · exact h0
    · rw [← masterFrequency_eq hv, hzero v (NetworkGraph.isNode_of_master hv)] at hpos
      exact absurd hpos (Nat.lt_irrefl 0)
  unfold getMostInfluentialNode exchangeMostInfluentialNodes
  rw [getMaxNode_of_zero hall]
  rfl

theorem masterFrequency_le_hostMax (c : PickChoice g) (store : Store H) {v : GlobalNodeID} (hv : g.IsNode v) :
    masterFrequency g store v ≤ (hostMax c store (g.getHostID v)).influence := by
  rw [masterFrequency_eq hv]
  rcases hostMax_cases c store (g.getHostID v) with ⟨hzero, _⟩ | ⟨u, _, heq, _, hmax⟩
  · rw [hzero v hv]
    exact Nat.zero_le _
  · rw [heq]
    exact hmax v hv

/-- While some counter is positive, every host picks the same node, a most influential one. -/
theorem getMostInfluentialNode_spec (c : PickChoice g) {v : GlobalNodeID} (hv : g.IsNode v)
    (hpos : 0 < masterFrequency g store v) :
    ∃ m, MostInfluential g (masterFrequency g store) m ∧
      ∀ h, getMostInfluentialNode c store h = m := by
  obtain ⟨r, hr, hrpos, hfirst⟩ : ∃ r, (∀ h, getMaxNode (c.globalJunk h)
      (List.ofFn (hostMax c store)) = r) ∧ 0 < r.influence ∧
      IsFirst LocalMaxNode.influence r (List.ofFn (hostMax c store)) := by
    rcases getMaxNode_cases (c.globalJunk (g.getHostID v)) (List.ofFn (hostMax c store)) with
      ⟨hzero, _⟩ | ⟨hrpos, hfirst⟩
    · have hle := masterFrequency_le_hostMax c store hv
      rw [hzero _ (List.mem_ofFn.mpr ⟨_, rfl⟩)] at hle
      omega
    · exact ⟨_, fun h => getMaxNode_of_isFirst hfirst hrpos, hrpos, hfirst⟩
  obtain ⟨k, hk, hbefore, hall⟩ := isFirst_ofFn.mp hfirst
  obtain ⟨m, hm, hrm⟩ : ∃ m ∈ g.masters k, r = candidate (store k) m := by
    rcases hostMax_cases c store k with ⟨_, h0⟩ | ⟨m, hm, heq, _⟩
    · rw [hk] at h0
      omega
    · exact ⟨m, hm, hk.symm.trans heq⟩
  have hfreq : masterFrequency g store m = r.influence := by
    rw [masterFrequency_eq hm, hrm]
    rfl
  refine ⟨m, ⟨NetworkGraph.isNode_of_master hm, hfreq ▸ hrpos, fun w hw => ?_,
    fun w hw heq => ?_⟩, fun h => ?_⟩
  · rw [hfreq]
    exact (masterFrequency_le_hostMax c store hw).trans (hall _)
  · rw [g.host_of_master hm]
    by_contra hlt
    have hless := hbefore _ (not_le.mp hlt)
    have hle := masterFrequency_le_hostMax c store hw
    omega
  · unfold getMostInfluentialNode exchangeMostInfluentialNodes
    rw [hr h, hrm]
    rfl

/-- Every host hands its masters to one thread, which takes `m` first where it is one of them. -/
def PickChoice.inFront (g : NetworkGraph H) (m : GlobalNodeID) (junk : Fin H → GlobalNodeID) :
    PickChoice g where
  threads h := [if m ∈ g.masters h then m :: (g.masters h).erase m else g.masters h]
  threads_perm h := by
    rw [List.flatten_cons, List.flatten_nil, List.append_nil]
    split_ifs with hm
    · exact (List.perm_cons_erase hm).symm
    · exact .rfl
  hostJunk := junk
  globalJunk := junk

theorem hostMax_inFront {m : GlobalNodeID} (hm : MostInfluential g (masterFrequency g store) m)
    (junk : Fin H → GlobalNodeID) : hostMax (.inFront g m junk) store (g.getHostID m) =
      candidate (store (g.getHostID m)) m := by
  have hcand : hostCandidates (.inFront g m junk) store (g.getHostID m) =
      [candidate (store (g.getHostID m)) m] := by
    have hmem : m ∈ g.masters (g.getHostID m) := hm.node
    simp only [hostCandidates, PickChoice.inFront, if_pos hmem, List.map_cons, List.map_nil,
      List.flatten_cons, List.flatten_nil, List.append_nil, foldl_findLocalMaxNode]
    rw [foldl_eq (isFirst_head fun a ha => ?_)]
    obtain ⟨v, hv, rfl⟩ := List.mem_map.mp ha
    have hv' := List.mem_of_mem_erase hv
    have hle := hm.most v (NetworkGraph.isNode_of_master hv')
    rwa [masterFrequency_eq hv', masterFrequency_eq hmem] at hle
  have hfirst : IsFirst LocalMaxNode.influence (candidate (store (g.getHostID m)) m)
      (hostCandidates (.inFront g m junk) store (g.getHostID m)) := by
    rw [hcand]
    exact isFirst_head fun a ha => by simp at ha
  exact getMaxNode_of_isFirst hfirst hm.positive

/-- Any most influential node may be picked. -/
theorem getMostInfluentialNode_inFront {m : GlobalNodeID}
    (hm : MostInfluential g (masterFrequency g store) m) (junk : Fin H → GlobalNodeID) (h : Fin H) :
    getMostInfluentialNode (.inFront g m junk) store h = m := by
  have hmax := hostMax_inFront hm junk
  have hle (k : Fin H) : (hostMax (.inFront g m junk) store k).influence ≤
      masterFrequency g store m := by
    rcases hostMax_cases (.inFront g m junk) store k with ⟨_, h0⟩ | ⟨v, hv, heq, _⟩
    · omega
    · rw [heq]
      have hv' := hm.most v (NetworkGraph.isNode_of_master hv)
      rwa [masterFrequency_eq hv] at hv'
  have hfirst : IsFirst LocalMaxNode.influence (candidate (store (g.getHostID m)) m)
      (List.ofFn (hostMax (.inFront g m junk) store)) := by
    apply isFirst_ofFn.mpr
    refine ⟨g.getHostID m, hmax, fun j hj => ?_, hle⟩
    apply lt_of_le_of_ne (hle j)
    intro heq
    rcases hostMax_cases (.inFront g m junk) store j with ⟨_, h0⟩ | ⟨v, hv, hcand, _⟩
    · have hpos := hm.positive
      omega
    · have hsame : masterFrequency g store v = masterFrequency g store m := by
        rw [masterFrequency_eq hv, ← heq, hcand]
        rfl
      have hfirst := hm.first v (NetworkGraph.isNode_of_master hv) hsame
      rw [g.host_of_master hv] at hfirst
      exact absurd hj (not_lt.mpr hfirst)
  unfold getMostInfluentialNode exchangeMostInfluentialNodes
  rw [getMaxNode_of_isFirst hfirst hm.positive]
  rfl

end Global
end Wf4
