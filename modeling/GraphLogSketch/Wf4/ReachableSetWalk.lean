import GraphLogSketch.Wf4.ReachableSet

/-! One call of `ContinueRandomReversibleReachableSet`. It counts every local node it takes from the
frontier once, leaves only remote nodes there, and expands as a graph search does. -/
namespace Wf4
open GraphSearch
variable {H : ℕ} {g : NetworkGraph H} {h : Fin H}

/-- The state of the walk, when the nodes of `settled` were off the frontier before it began. -/
structure Walk.Ok (g : NetworkGraph H) (h : Fin H) (settled : Finset GlobalNodeID) (w : Walk) :
    Prop where
  queue_nodup : w.localFrontier.Nodup
  local_mem : ∀ v ∈ w.localFrontier, v ∈ g.masters h ∧ v ∈ w.reached
  remote_mem : ∀ v ∈ w.remoteFrontier, v ∉ g.masters h ∧ v ∈ w.reached
  counted_nodup : w.counted.Nodup
  counted_mem : ∀ v ∈ w.counted, v ∈ g.masters h ∧ v ∉ settled
  done : ∀ v, (v ∈ w.reached ∧ v ∉ w.localFrontier ∧ v ∉ w.remoteFrontier) ↔
    v ∈ settled ∨ v ∈ w.counted
  nodes : ∀ v ∈ w.reached, g.IsNode v

/-- The walk as a graph search, continuing the expansions of earlier calls. -/
def Walk.search (g : NetworkGraph H) (before : List Expansion) (w : Walk) : Search GlobalNodeID :=
  ⟨w.reached, w.localFrontier.toFinset ∪ w.remoteFrontier,
    (before ++ w.log).map fun x => (x.node, (liveSuccessors g x).toFinset)⟩

section Reach
variable {settled : Finset GlobalNodeID} {w : Walk} {gid : GlobalNodeID}

theorem reach_reached (g : NetworkGraph H) (h : Fin H) (w : Walk) (gid : GlobalNodeID) :
    (reach g h w gid).reached = insert gid w.reached := by
  unfold reach
  split_ifs with hr
  · exact (Finset.insert_eq_of_mem hr).symm
  · rfl
  · rfl

theorem reach_frontier (g : NetworkGraph H) (h : Fin H) (w : Walk) (gid : GlobalNodeID) :
    (reach g h w gid).localFrontier.toFinset ∪ (reach g h w gid).remoteFrontier =
      w.localFrontier.toFinset ∪ w.remoteFrontier ∪ ({gid} \ w.reached) := by
  unfold reach
  split_ifs with hr
  · rw [Finset.sdiff_eq_empty_iff_subset.mpr (Finset.singleton_subset_iff.mpr hr),
      Finset.union_empty]
  all_goals
    rw [Finset.sdiff_eq_self_of_disjoint (Finset.disjoint_singleton_left.mpr hr)]
    ext v
    simp only [Finset.mem_union, List.mem_toFinset, List.mem_append, List.mem_singleton,
      Finset.mem_singleton, Finset.mem_insert]
    tauto

theorem reach_counted (g : NetworkGraph H) (h : Fin H) (w : Walk) (gid : GlobalNodeID) :
    (reach g h w gid).counted = w.counted := by
  unfold reach
  split_ifs <;> rfl

theorem reach_log (g : NetworkGraph H) (h : Fin H) (w : Walk) (gid : GlobalNodeID) :
    (reach g h w gid).log = w.log := by
  unfold reach
  split_ifs <;> rfl

theorem Walk.Ok.reach (hw : w.Ok g h settled) (hg : g.IsNode gid) :
    (reach g h w gid).Ok g h settled := by
  unfold Wf4.reach
  split_ifs with hr ho
  · exact hw
  · have hm := g.isOwned_iff.mp ho
    have hq : gid ∉ w.localFrontier := fun hx => hr (hw.local_mem gid hx).2
    have hdone : ¬ (gid ∈ settled ∨ gid ∈ w.counted) := fun hx => hr ((hw.done gid).mpr hx).1
    constructor
    · exact hw.queue_nodup.append (List.nodup_singleton gid) (List.disjoint_singleton.mpr hq)
    · intro v hv
      rcases List.mem_append.mp hv with hv | hv
      · exact ⟨(hw.local_mem v hv).1, Finset.mem_insert_of_mem (hw.local_mem v hv).2⟩
      · obtain rfl := List.mem_singleton.mp hv
        exact ⟨hm, Finset.mem_insert_self v _⟩
    · intro v hv
      exact ⟨(hw.remote_mem v hv).1, Finset.mem_insert_of_mem (hw.remote_mem v hv).2⟩
    · exact hw.counted_nodup
    · exact hw.counted_mem
    · intro v
      by_cases hv : v = gid
      · simp [hv, hdone]
      · simpa [hv] using hw.done v
    · intro v hv
      rcases Finset.mem_insert.mp hv with rfl | hv
      · exact hg
      · exact hw.nodes v hv
  · have hm : gid ∉ g.masters h := by simpa using ho
    have hdone : ¬ (gid ∈ settled ∨ gid ∈ w.counted) := fun hx => hr ((hw.done gid).mpr hx).1
    constructor
    · exact hw.queue_nodup
    · intro v hv
      exact ⟨(hw.local_mem v hv).1, Finset.mem_insert_of_mem (hw.local_mem v hv).2⟩
    · intro v hv
      rcases Finset.mem_insert.mp hv with rfl | hv
      · exact ⟨hm, Finset.mem_insert_self v _⟩
      · exact ⟨(hw.remote_mem v hv).1, Finset.mem_insert_of_mem (hw.remote_mem v hv).2⟩
    · exact hw.counted_nodup
    · exact hw.counted_mem
    · intro v
      by_cases hv : v = gid
      · simp [hv, hdone]
      · simpa [hv] using hw.done v
    · intro v hv
      rcases Finset.mem_insert.mp hv with rfl | hv
      · exact hg
      · exact hw.nodes v hv

variable (l : List GlobalNodeID)

theorem foldl_reach_ok (hw : w.Ok g h settled) (hl : ∀ v ∈ l, g.IsNode v) :
    (l.foldl (reach g h) w).Ok g h settled := by
  induction l generalizing w with
  | nil => exact hw
  | cons v l ih =>
    exact ih (hw.reach (hl v List.mem_cons_self)) fun u hu => hl u (List.mem_cons_of_mem v hu)

theorem foldl_reach_spec (g : NetworkGraph H) (h : Fin H) (w : Walk) :
    (l.foldl (reach g h) w).reached = w.reached ∪ l.toFinset ∧
      (l.foldl (reach g h) w).localFrontier.toFinset ∪ (l.foldl (reach g h) w).remoteFrontier =
        w.localFrontier.toFinset ∪ w.remoteFrontier ∪ (l.toFinset \ w.reached) ∧
      (l.foldl (reach g h) w).counted = w.counted ∧ (l.foldl (reach g h) w).log = w.log := by
  induction l generalizing w with
  | nil => simp
  | cons v l ih =>
    obtain ⟨hr, hf, hc, hlog⟩ := ih (reach g h w v)
    rw [List.foldl_cons]
    refine ⟨?_, ?_, hc.trans (reach_counted ..), hlog.trans (reach_log ..)⟩
    · rw [hr, reach_reached, List.toFinset_cons, Finset.insert_union, Finset.union_insert]
    · rw [hf, reach_frontier, reach_reached]
      ext u
      simp only [Finset.mem_union, Finset.mem_sdiff, Finset.mem_insert, List.toFinset_cons,
        Finset.mem_singleton]
      tauto

end Reach

/-- The draws of an expansion decide which destinations are reached. -/
theorem foldl_examineEdge (g : NetworkGraph H) (h : Fin H) (x : Expansion) (w : Walk) :
    ((g.edges x.node).zip x.draws).foldl (examineEdge g h) w =
      (liveSuccessors g x).foldl (reach g h) w := by
  rw [liveSuccessors, List.foldl_map, List.foldl_filter]
  congr 1
  funext w p
  simp [examineEdge]

theorem liveSuccessors_node {x : Expansion} (hx : g.IsNode x.node) :
    ∀ v ∈ liveSuccessors g x, g.IsNode v := by
  intro v hv
  obtain ⟨p, hp, rfl⟩ := List.mem_map.mp hv
  exact NetworkGraph.edge_isNode hx (List.of_mem_zip (List.mem_of_mem_filter hp)).1

section Visit
variable {settled : Finset GlobalNodeID} {w : Walk} {gid : GlobalNodeID} {rest : List GlobalNodeID}

/-- The node at the head of the queue is counted. -/
theorem Walk.Ok.pop (hw : w.Ok g h settled) (hq : w.localFrontier = gid :: rest)
    (log : List Expansion) : Walk.Ok g h settled
      ⟨w.reached, rest, w.remoteFrontier, w.counted ++ [gid], log⟩ := by
  have hnd := hq ▸ hw.queue_nodup
  have hmem : gid ∈ w.localFrontier := hq ▸ List.mem_cons_self
  obtain ⟨hm, hr⟩ := hw.local_mem gid hmem
  have hrem : gid ∉ w.remoteFrontier := fun hx => (hw.remote_mem gid hx).1 hm
  have hnot : ¬ (gid ∈ settled ∨ gid ∈ w.counted) := fun hx => ((hw.done gid).mpr hx).2.1 hmem
  constructor
  · exact (List.nodup_cons.mp hnd).2
  · intro v hv
    exact hw.local_mem v (hq ▸ List.mem_cons_of_mem gid hv)
  · exact hw.remote_mem
  · exact hw.counted_nodup.append (List.nodup_singleton gid)
      (List.disjoint_singleton.mpr fun hx => hnot (Or.inr hx))
  · intro v hv
    rcases List.mem_append.mp hv with hv | hv
    · exact hw.counted_mem v hv
    · obtain rfl := List.mem_singleton.mp hv
      exact ⟨hm, fun hx => hnot (Or.inl hx)⟩
  · intro v
    have hdone := hw.done v
    rw [hq] at hdone
    by_cases hv : v = gid
    · subst hv
      simp [hr, hrem, (List.nodup_cons.mp hnd).1]
    · simpa [hv] using hdone
  · exact hw.nodes

theorem Walk.Ok.visit (hw : w.Ok g h settled) (hq : w.localFrontier = gid :: rest)
    (dist : Draws) (finish : Bool) :
    (visit g h dist finish gid { w with localFrontier := rest }).Ok g h settled := by
  have hn : g.IsNode gid := NetworkGraph.isNode_of_master (hw.local_mem gid (by simp [hq])).1
  unfold Wf4.visit
  split_ifs
  · exact hw.pop hq w.log
  · have hfold := foldl_examineEdge g h ⟨gid, nodeDraws g dist w.log.length gid⟩
    dsimp only at hfold ⊢
    rw [hfold]
    exact foldl_reach_ok _ (hw.pop hq _) (liveSuccessors_node hn)

/-- Visiting a node expands it. -/
theorem visit_search (hw : w.Ok g h settled) (hq : w.localFrontier = gid :: rest) (dist : Draws)
    (before : List Expansion) :
    (visit g h dist false gid { w with localFrontier := rest }).search g before =
      (w.search g before).expand gid
        (liveSuccessors g ⟨gid, nodeDraws g dist w.log.length gid⟩).toFinset := by
  have hnd := List.nodup_cons.mp (hq ▸ hw.queue_nodup)
  have hm := hw.local_mem gid (by simp [hq])
  have hrem : gid ∉ w.remoteFrontier := fun hx => (hw.remote_mem gid hx).1 hm.1
  have hfold := foldl_examineEdge g h ⟨gid, nodeDraws g dist w.log.length gid⟩
  dsimp only at hfold
  rw [Walk.search, Wf4.visit, if_neg Bool.false_ne_true]
  dsimp only
  rw [hfold]
  obtain ⟨hr, hf, _, hlog⟩ := foldl_reach_spec
    (liveSuccessors g ⟨gid, nodeDraws g dist w.log.length gid⟩) g h
    ⟨w.reached, rest, w.remoteFrontier, w.counted ++ [gid],
      w.log ++ [⟨gid, nodeDraws g dist w.log.length gid⟩]⟩
  rw [hr, hf, hlog, Walk.search, Search.expand, hq]
  congr 1
  · ext v
    simp only [Finset.mem_union, Finset.mem_sdiff, Finset.mem_erase, List.toFinset_cons,
      Finset.mem_insert, List.mem_toFinset]
    by_cases hv : v = gid
    · subst hv
      simp [hnd.1, hrem, hm.2]
    · simp [hv]
  · simp

end Visit

/-- What every visit keeps holds when the queue is empty. -/
theorem walkLocal_invariant {P : Walk → Prop} (dist : Draws) (finish : Bool)
    (hvisit : ∀ w gid rest, w.localFrontier = gid :: rest → P w →
      P (visit g h dist finish gid { w with localFrontier := rest })) {w : Walk} (hw : P w) :
    P (walkLocal g h dist finish w) ∧ (walkLocal g h dist finish w).localFrontier = [] := by
  induction w using walkLocal.induct g h dist finish with
  | case1 w hq =>
    rw [walkLocal]
    split
    · exact ⟨hw, hq⟩
    · simp_all
  | case2 w gid rest hq ih =>
    rw [walkLocal]
    split
    · simp_all
    · rename_i gid' rest' hq'
      obtain ⟨rfl, rfl⟩ : gid = gid' ∧ rest = rest' := by simpa using hq.symm.trans hq'
      exact ih (hvisit w gid rest hq hw)

namespace PartialReachableSet

/-- The nodes that are not on the frontier any more; each of them has been counted. -/
def settled (s : PartialReachableSet) : Finset GlobalNodeID := s.partialReachableSet \ s.frontier

def search (g : NetworkGraph H) (before : List Expansion) (s : PartialReachableSet) :
    Search GlobalNodeID :=
  ⟨s.partialReachableSet, s.frontier,
    before.map fun x => (x.node, (liveSuccessors g x).toFinset)⟩

/-- What a host may assume of a set it works on. -/
structure WellFormed (g : NetworkGraph H) (s : PartialReachableSet) : Prop where
  frontier_sub : s.frontier ⊆ s.partialReachableSet
  nodes : ∀ v ∈ s.partialReachableSet, g.IsNode v

end PartialReachableSet

/-- An enumeration of a hash set. -/
def Enumerates (l : List GlobalNodeID) (s : Finset GlobalNodeID) : Prop :=
  l.Nodup ∧ l.toFinset = s

section Call
variable {s : PartialReachableSet} {frontier : List GlobalNodeID} {dist : Draws} {finish : Bool}

/-- The variables of a call when its loop begins. -/
def startWalk (g : NetworkGraph H) (h : Fin H) (frontier : List GlobalNodeID)
    (s : PartialReachableSet) : Walk :=
  ⟨s.partialReachableSet, frontier.filter fun v => g.isOwned h v,
    (frontier.filter fun v => !g.isOwned h v).toFinset, [], []⟩

theorem startWalk_remote (hf : Enumerates frontier s.frontier) {v : GlobalNodeID} :
    v ∈ (startWalk g h frontier s).remoteFrontier ↔ v ∈ s.frontier ∧ v ∉ g.masters h := by
  rw [← hf.2]
  simp [startWalk]

theorem startWalk_local (hf : Enumerates frontier s.frontier) {v : GlobalNodeID} :
    v ∈ (startWalk g h frontier s).localFrontier ↔ v ∈ s.frontier ∧ v ∈ g.masters h := by
  rw [← hf.2]
  simp [startWalk]

theorem startWalk_search (hf : Enumerates frontier s.frontier) (before : List Expansion) :
    (startWalk g h frontier s).search g before = s.search g before := by
  rw [Walk.search, PartialReachableSet.search]
  congr 1
  · ext v
    rw [Finset.mem_union, List.mem_toFinset, startWalk_local hf, startWalk_remote hf]
    tauto
  · simp [startWalk]

theorem startWalk_ok (hs : s.WellFormed g) (hf : Enumerates frontier s.frontier) :
    (startWalk g h frontier s).Ok g h s.settled := by
  constructor
  · exact hf.1.filter _
  · intro v hv
    obtain ⟨hv, hm⟩ := (startWalk_local hf).mp hv
    exact ⟨hm, hs.frontier_sub hv⟩
  · intro v hv
    obtain ⟨hv, hm⟩ := (startWalk_remote hf).mp hv
    exact ⟨hm, hs.frontier_sub hv⟩
  · exact List.nodup_nil
  · intro v hv
    simp [startWalk] at hv
  · intro v
    rw [startWalk_local hf, startWalk_remote hf, PartialReachableSet.settled, Finset.mem_sdiff]
    simp only [startWalk, List.not_mem_nil, or_false]
    tauto
  · exact hs.nodes

theorem continueSet_eq (g : NetworkGraph H) (h : Fin H) (dist : Draws) (finish : Bool)
    (frontier : List GlobalNodeID) (s : PartialReachableSet) :
    continueSet g h dist finish frontier s =
      let w := walkLocal g h dist finish (startWalk g h frontier s)
      if finish then
        ⟨{ s with partialReachableSet := w.reached \ w.remoteFrontier, frontier := ∅ },
          w.counted, w.log⟩
      else ⟨{ s with partialReachableSet := w.reached, frontier := w.remoteFrontier },
        w.counted, w.log⟩ := rfl

/-- Whatever the draws are, a call counts the nodes it settles, once each. -/
structure Continued.Spec (g : NetworkGraph H) (h : Fin H) (s : PartialReachableSet)
    (c : Continued) : Prop where
  id : c.set.id = s.id
  ownerHost : c.set.ownerHost = s.ownerHost
  wellFormed : c.set.WellFormed g
  remote : ∀ v ∈ c.set.frontier, v ∉ g.masters h
  counted_nodup : c.counted.Nodup
  counted_mem : ∀ v ∈ c.counted, v ∈ g.masters h ∧ v ∉ s.settled
  settled : ∀ v, v ∈ c.set.settled ↔ v ∈ s.settled ∨ v ∈ c.counted

theorem continueSet_spec (hs : s.WellFormed g) (hf : Enumerates frontier s.frontier) (dist : Draws)
    (finish : Bool) : (continueSet g h dist finish frontier s).Spec g h s := by
  obtain ⟨hw, hq⟩ := walkLocal_invariant dist finish
    (fun w gid rest hq hw => hw.visit hq dist finish) (startWalk_ok (h := h) hs hf)
  set w := walkLocal g h dist finish (startWalk g h frontier s) with hwdef
  have hdone (v : GlobalNodeID) : v ∈ w.reached \ w.remoteFrontier ↔
      v ∈ s.settled ∨ v ∈ w.counted := by
    have hd := hw.done v
    rw [hq] at hd
    simpa using hd
  rw [continueSet_eq, ← hwdef]
  cases finish
  · refine ⟨rfl, rfl, ⟨fun v hv => (hw.remote_mem v hv).2, hw.nodes⟩,
      fun v hv => (hw.remote_mem v hv).1, hw.counted_nodup, hw.counted_mem, hdone⟩
  · refine ⟨rfl, rfl, ⟨Finset.empty_subset _, fun v hv => hw.nodes v (Finset.mem_sdiff.mp hv).1⟩,
      fun v hv => by simp at hv, hw.counted_nodup, hw.counted_mem, fun v => ?_⟩
    simp only [PartialReachableSet.settled, if_true, Finset.sdiff_empty]
    exact hdone v

/-- A call that is not told to finish goes on with the search. -/
theorem continueSet_search {Q : Search GlobalNodeID → Prop}
    (hQ : ∀ t v out, v ∈ t.frontier → Q t → Q (t.expand v out)) (hs : s.WellFormed g)
    (hf : Enumerates frontier s.frontier) {before : List Expansion} (h₀ : Q (s.search g before)) :
    Q ((continueSet g h dist false frontier s).set.search g
      (before ++ (continueSet g h dist false frontier s).log)) := by
  obtain ⟨⟨_, hw⟩, hq⟩ := walkLocal_invariant dist false (g := g) (h := h)
    (P := fun w => w.Ok g h s.settled ∧ Q (w.search g before))
    (fun w gid rest hq hw => ⟨hw.1.visit hq dist false, by
      rw [visit_search hw.1 hq]
      refine hQ _ _ _ ?_ hw.2
      simp [Walk.search, hq]⟩)
    ⟨startWalk_ok (h := h) hs hf, by rwa [startWalk_search hf]⟩
  set w := walkLocal g h dist false (startWalk g h frontier s) with hwdef
  rw [continueSet_eq, ← hwdef]
  simpa [PartialReachableSet.search, Walk.search, hq] using hw

/-- Every edge of an expanded node is drawn once. -/
theorem continueSet_draws (g : NetworkGraph H) (h : Fin H) (dist : Draws) (finish : Bool)
    (frontier : List GlobalNodeID) (s : PartialReachableSet) :
    ∀ x ∈ (continueSet g h dist finish frontier s).log,
      ∃ n, x.draws = nodeDraws g dist n x.node := by
  let P (w : Walk) : Prop := ∀ x ∈ w.log, ∃ n, x.draws = nodeDraws g dist n x.node
  have hvisit (w : Walk) (gid : GlobalNodeID) (rest : List GlobalNodeID) (hw : P w) :
      P (visit g h dist finish gid { w with localFrontier := rest }) := by
    intro x hx
    unfold visit at hx
    split_ifs at hx
    · exact hw x hx
    · have hfold := foldl_examineEdge g h ⟨gid, nodeDraws g dist w.log.length gid⟩
      dsimp only at hfold hx
      rw [hfold, (foldl_reach_spec _ g h _).2.2.2] at hx
      rcases List.mem_append.mp hx with hx | hx
      · exact hw x hx
      · obtain rfl := List.mem_singleton.mp hx
        exact ⟨_, rfl⟩
  have hstart : P (startWalk g h frontier s) := by
    intro x hx
    simp [startWalk] at hx
  have hdraws := (walkLocal_invariant dist finish (fun w gid rest _ => hvisit w gid rest) hstart).1
  rw [continueSet_eq]
  cases finish
  · exact hdraws
  · exact hdraws

/-- A call that is told to finish expands nothing and drops the remote part of the frontier. -/
theorem continueSet_finish (hf : Enumerates frontier s.frontier) (dist : Draws) :
    (continueSet g h dist true frontier s).log = [] ∧
      (continueSet g h dist true frontier s).set.frontier = ∅ ∧
      (continueSet g h dist true frontier s).set.partialReachableSet =
        s.partialReachableSet \ {v ∈ s.frontier | v ∉ g.masters h} := by
  obtain ⟨⟨hr, hrem, hlog⟩, _⟩ := walkLocal_invariant dist true (g := g) (h := h)
    (P := fun w => w.reached = s.partialReachableSet ∧
      w.remoteFrontier = (startWalk g h frontier s).remoteFrontier ∧ w.log = [])
    (fun w gid rest _ hw => hw) (w := startWalk g h frontier s) ⟨rfl, rfl, rfl⟩
  rw [continueSet_eq]
  refine ⟨hlog, rfl, ?_⟩
  simp only [if_true]
  rw [hr, hrem]
  congr 1
  ext v
  rw [startWalk_remote hf, Finset.mem_filter]

end Call
end Wf4
