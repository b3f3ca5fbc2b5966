import GraphLogSketch.Wf4.QuiesceGranting
import GraphLogSketch.Wf4.QuiesceTrading

/-! Every thread of the first two phases gets its work done, so `QuiesceGraph` always has a run. -/
namespace Wf4
open Reservation
variable {H : ℕ}

/-- The steps an attempt still takes. -/
def pcWork : TradePc → ℕ
  | .idle => 0
  | .reserving .. => 3
  | .comparing .. => 2
  | .withdrawing .. | .committing .. => 1

theorem attempt_work (s : HostState) {p : TradePc} (h : pcWork p ≠ 0)
    (hc : ∀ seller delta seen, p ≠ .committing seller delta seen) :
    pcWork (attempt s p).2 < pcWork p := by
  cases p with
  | idle => exact absurd rfl h
  | reserving => exact Nat.lt_succ_self 2
  | comparing =>
    simp only [attempt]
    split_ifs <;> exact Nat.lt_succ_self 1
  | withdrawing => exact Nat.lt_succ_self 0
  | committing => exact absurd rfl (hc _ _ _)

def Buyer.work (g : NetworkGraph H) (node : GlobalNodeID) : Buyer → ℕ
  | .waiting => 5 * (g.edges node).length + 2
  | .running _ rest pc => 5 * rest.length + pcWork pc + 1
  | .finished => 0

def Proposal.work : Proposal → ℕ
  | .waiting => 5
  | .running pc => pcWork pc + 1
  | .finished _ => 0

theorem nextEdge_work (g : NetworkGraph H) (node : GlobalNodeID) (d : HostData) (needed : ℚ)
    (rest : List OutEdge) : (nextEdge d needed rest).work g node < 5 * rest.length + 1 := by
  cases rest with
  | nil => exact Nat.zero_lt_one
  | cons e rest =>
    simp only [nextEdge]
    split_ifs <;> simp only [Buyer.work, pcWork, List.length_cons] <;> omega

theorem tryQuiesceNode_work {g : NetworkGraph H} {h : Fin H} (node : GlobalNodeID)
    (s : Trading H) (hw : (s.buyers node).work g node ≠ 0) :
    ((tryQuiesceNode g h node s).buyers node).work g node < (s.buyers node).work g node := by
  unfold tryQuiesceNode
  cases hb : s.buyers node with
  | waiting => simp [Buyer.work, pcWork]
  | finished => simp [hb, Buyer.work] at hw
  | running needed rest pc =>
    have hatt (hz : pcWork pc ≠ 0) (hc : ∀ seller delta seen, pc ≠ .committing seller delta seen) :
        5 * rest.length + pcWork (attempt s.host pc).2 + 1 < 5 * rest.length + pcWork pc + 1 := by
      have := attempt_work s.host hz hc
      omega
    cases pc with
    | idle =>
      rw [Trading.setBuyer_self]
      exact nextEdge_work g node _ _ _
    | committing =>
      rw [Trading.setBuyer_self]
      simp [Buyer.work, pcWork]
    | reserving | comparing | withdrawing =>
      rw [Trading.setBuyer_self]
      exact hatt (by simp [pcWork]) (by simp)

theorem commitTrade_buyers (g : NetworkGraph H) (h : Fin H) (node seller : GlobalNodeID) (delta : ℚ)
    (s : Trading H) : (commitTrade g h node seller delta s).buyers = s.buyers := by
  unfold commitTrade
  split_ifs <;> rfl

theorem tryQuiesceNode_others {g : NetworkGraph H} {h : Fin H} (node v : GlobalNodeID)
    (s : Trading H) (hv : v ≠ node) : (tryQuiesceNode g h node s).buyers v = s.buyers v := by
  rcases tryQuiesceNode_cases g h node s with hq | ⟨_, _, _, _, _, _, heq⟩
  · exact hq.others v hv
  · rw [heq, Trading.setBuyer_of_ne _ _ _ _ hv, commitTrade_buyers]

theorem tryAddEdge_work {g : NetworkGraph H} {edges : List (ProposedEdge ℚ)}
    (i : Fin edges.length) (s : Granting H edges.length) (hw : (s.proposals i).work ≠ 0) :
    ((tryAddEdge g edges i s).proposals i).work < (s.proposals i).work := by
  unfold tryAddEdge
  cases hp : s.proposals i with
  | waiting =>
    dsimp only
    split_ifs <;> simp [Proposal.work, pcWork]
  | finished => simp [hp, Proposal.work] at hw
  | running pc =>
    have hatt (hz : pcWork pc ≠ 0) (hc : ∀ seller delta seen, pc ≠ .committing seller delta seen) :
        pcWork (attempt s.host pc).2 + 1 < pcWork pc + 1 := by
      have := attempt_work s.host hz hc
      omega
    cases pc with
    | idle | committing =>
      rw [Granting.setProposal_self]
      exact Nat.succ_pos _
    | reserving | comparing | withdrawing =>
      rw [Granting.setProposal_self]
      exact hatt (by simp [pcWork]) (by simp)

theorem tryAddEdge_others {g : NetworkGraph H} {edges : List (ProposedEdge ℚ)}
    (i j : Fin edges.length) (s : Granting H edges.length) (hj : j ≠ i) :
    (tryAddEdge g edges i s).proposals j = s.proposals j := by
  rcases tryAddEdge_cases g edges i s with hq | ⟨_, _, _, _, heq⟩
  · exact hq.others j hj
  · rw [heq, Granting.setProposal_of_ne _ _ _ _ hj]
    rfl

/-- From any state the buyers of a host can be run to their ends. -/
theorem exists_trades (g : NetworkGraph H) (h : Fin H) (s : Trading H) :
    ∃ s', Threads.Run (g.masters h) (tryQuiesceNode g h) s s' ∧
      ∀ node ∈ g.masters h, s'.buyers node = .finished := by
  obtain ⟨s', hrun, hdone⟩ := Threads.exists_run (tryQuiesceNode g h)
    (fun node s => (s.buyers node).work g node) tryQuiesceNode_work
    (fun node v s hv => by rw [tryQuiesceNode_others node v s hv]) (g.masters h) s
  refine ⟨s', hrun, fun node hnode => ?_⟩
  have hzero := hdone node hnode
  cases hb : s'.buyers node with
  | finished => rfl
  | waiting | running => simp [hb, Buyer.work] at hzero

theorem exists_grants (g : NetworkGraph H) (edges : List (ProposedEdge ℚ))
    (s : Granting H edges.length) :
    ∃ s', Threads.Run (List.finRange _) (tryAddEdge g edges) s s' ∧
      ∀ i, ∃ delta, s'.proposals i = .finished delta := by
  obtain ⟨s', hrun, hdone⟩ := Threads.exists_run (tryAddEdge g edges)
    (fun i s => (s.proposals i).work) tryAddEdge_work
    (fun i j s hj => by rw [tryAddEdge_others i j s hj]) (List.finRange _) s
  refine ⟨s', hrun, fun i => ?_⟩
  have hzero := hdone i (List.mem_finRange i)
  cases hp : s'.proposals i with
  | finished delta => exact ⟨delta, rfl⟩
  | waiting | running => simp [hp, Proposal.work] at hzero

/-- `QuiesceGraph` has a run from every state of the hosts. -/
theorem quiesceRun_nonempty (g : NetworkGraph H) (entry : Hosts H) :
    Nonempty (QuiesceRun g entry) := by
  choose traded htrades hend using fun h => exists_trades g h (startTrading (entry h))
  choose granted hgrants hgend using fun h =>
    exists_grants g (receivedEdges (fun k => (traded k).remoteEdges) h)
      (startGranting h (traded h) _)
  exact ⟨⟨traded, htrades, hend, granted, hgrants, hgend, _, fun _ => .rfl⟩⟩

end Wf4
