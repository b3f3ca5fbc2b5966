import GraphLogSketch.Wf4.QuiesceProgress

/-! What mirrors of sellers are raised by in the first phase, and what is proposed to the sellers. A
buyer that commits twice against one seller has a proposal for it already, and the second is left
out. -/
namespace Wf4
open Reservation
variable {H : ℕ}

namespace Trading

/-- The buyer is about to commit a trade with a seller elsewhere for which its host has a proposal of
the same buyer already. -/
def Drops (g : NetworkGraph H) (h : Fin H) (node : GlobalNodeID) (s : Trading H) : Prop :=
  ∃ needed rest seller delta sellerSold,
    s.buyers node = .running needed rest (.committing seller delta sellerSold) ∧
    seller ∉ g.masters h ∧
    (node, seller) ∈ (s.remoteEdges (g.getHostID seller)).edges.map ProposedEdge.key

/-- What is settled on the mirror of a seller and not proposed to the seller. -/
def unproposed (g : NetworkGraph H) (h : Fin H) (s : Trading H) (v : GlobalNodeID) : ℚ :=
  if v ∈ g.masters h then 0 else s.pool.settled v - s.remoteEdges.total (byDst v)

end Trading

section Step
variable {g : NetworkGraph H} {h : Fin H} {node seller v : GlobalNodeID} {s s' : Trading H}
  {needed delta sellerSold : ℚ} {rest : List OutEdge} {e : HostData}

theorem Trading.Quiet.unproposed (hq : s.Quiet g node s') :
    s'.unproposed g h = s.unproposed g h := by
  have hsettled (v : GlobalNodeID) : s'.pool.settled v = s.pool.settled v := hq.host.settled v
  funext v
  unfold Trading.unproposed
  rw [hsettled, hq.remoteEdges]

/-- A commit leaves its amount unproposed if the proposal is there already. -/
theorem Trading.unproposed_commit
    (hb : s.buyers node = .running needed rest (.committing seller delta sellerSold))
    (v : GlobalNodeID) : ((commitTrade g h node seller delta s).setBuyer node
      (.running (needed - delta) rest .idle)).unproposed g h v =
      s.unproposed g h v + if seller = v ∧ seller ∉ g.masters h ∧
        (node, seller) ∈ (s.remoteEdges (g.getHostID seller)).edges.map ProposedEdge.key
      then delta else 0 := by
  unfold Trading.unproposed
  rw [Trading.commit_settled hb v, Trading.setBuyer_remoteEdges]
  by_cases hv : v ∈ g.masters h
  · rw [if_pos hv, if_pos hv, if_neg, add_zero]
    rintro ⟨rfl, hs, -⟩
    exact hs hv
  · rw [if_neg hv, if_neg hv]
    by_cases hs : seller ∈ g.masters h
    · have hne : seller ≠ v := fun hsv => hv (hsv ▸ hs)
      rw [commitTrade_owned node delta s hs, if_neg hne, if_neg (fun hc => hne hc.1)]
      ring
    · rw [commitTrade_not_owned node delta s hs, RemoteEdges.total_emplace]
      by_cases hsv : seller = v
      · subst hsv
        have hfactor : byDst seller (ProposedEdge.key ⟨node, seller, delta⟩) = 1 := if_pos rfl
        rw [hfactor, one_mul, if_pos rfl]
        by_cases hkey :
            (node, seller) ∈ (s.remoteEdges (g.getHostID seller)).edges.map ProposedEdge.key
        · rw [if_pos (show ProposedEdge.key ⟨node, seller, delta⟩ ∈ _ from hkey),
            if_pos ⟨rfl, hs, hkey⟩]
          ring
        · rw [if_neg (show ProposedEdge.key ⟨node, seller, delta⟩ ∉ _ from hkey),
            if_neg fun hc => hkey hc.2.2]
          ring
      · have hfactor : byDst v (ProposedEdge.key ⟨node, seller, delta⟩) = 0 := if_neg hsv
        rw [hfactor, zero_mul, ite_self, if_neg hsv, if_neg fun hc => hsv hc.1]
        ring

theorem tryQuiesceNode_committing
    (hb : s.buyers node = .running needed rest (.committing seller delta sellerSold)) :
    tryQuiesceNode g h node s = (commitTrade g h node seller delta s).setBuyer node
      (.running (needed - delta) rest .idle) := by
  unfold tryQuiesceNode
  rw [hb]

theorem tryQuiesceNode_unproposed (hd : ¬ s.Drops g h node) :
    (tryQuiesceNode g h node s).unproposed g h = s.unproposed g h := by
  rcases tryQuiesceNode_cases g h node s with hq | ⟨needed, rest, seller, delta, seen, hb, heq⟩
  · exact hq.unproposed
  · funext v
    rw [heq, Trading.unproposed_commit hb, if_neg, add_zero]
    rintro ⟨-, hs, hkey⟩
    exact hd ⟨needed, rest, seller, delta, seen, hb, hs, hkey⟩

theorem Trading.Drops.unproposed_lt (hd : s.Drops g h node) (hl : s.Ledger g h e) :
    s.unproposed g h < (tryQuiesceNode g h node s).unproposed g h := by
  obtain ⟨needed, rest, seller, delta, seen, hb, hs, hkey⟩ := hd
  have hpos := hl.delta_pos hb
  rw [tryQuiesceNode_committing hb]
  refine Pi.lt_def.mpr ⟨fun v => ?_, seller, ?_⟩
  · rw [Trading.unproposed_commit hb]
    split_ifs <;> linarith
  · rw [Trading.unproposed_commit hb, if_pos ⟨rfl, hs, hkey⟩]
    exact lt_add_of_pos_right _ hpos

/-- Only buyers that take part move. -/
theorem tryQuiesceNode_waiting {nodes : List GlobalNodeID} (hnode : node ∈ nodes)
    (hw : ∀ v ∉ nodes, s.buyers v = .waiting) :
    ∀ v ∉ nodes, (tryQuiesceNode g h node s).buyers v = .waiting := fun v hv => by
  rw [tryQuiesceNode_others node v s fun hvn => hv (hvn ▸ hnode)]
  exact hw v hv

end Step

section Run
variable {g : NetworkGraph H} {h : Fin H} {nodes picks : List GlobalNodeID}

theorem startTrading_unproposed (s : HostState) (v : GlobalNodeID) :
    (startTrading (H := H) s).unproposed g h v =
      if v ∈ g.masters h then 0 else (s.data v).sold := by
  have hsettled : (startTrading (H := H) s).pool.settled v = (s.data v).sold :=
    Pool.settled_eq_reserved fun _ hh => hh.elim
  have htotal : (startTrading (H := H) s).remoteEdges.total (byDst v) = 0 :=
    RemoteEdges.total_empty _
  rw [Trading.unproposed, hsettled, htotal, sub_zero]

/-- A run in which no buyer commits a trade that it has proposed already leaves nothing unproposed,
and every other run does. -/
theorem unproposed_eq_iff (hnodes : ∀ v ∈ nodes, v ∈ g.masters h) (s : HostState)
    (hpicks : ∀ v ∈ picks, v ∈ nodes) :
    (Threads.after (tryQuiesceNode g h) picks (startTrading s)).unproposed g h =
        (startTrading s).unproposed g h ↔
      Threads.Always (tryQuiesceNode g h) (fun node t => ¬ t.Drops g h node) picks
        (startTrading s) :=
  Threads.after_eq_iff_always (P := fun t => t.Ledger g h s.data)
    (fun v hv _ hl => tryQuiesceNode_ledger hl (hnodes v hv))
    (fun _ _ _ _ hd => tryQuiesceNode_unproposed hd)
    (fun _ _ _ hl hd => (not_not.mp hd).unproposed_lt hl) hpicks (startTrading_ledger s)

/-- When all have finished, everything on a mirror is settled. -/
theorem settled_of_finished (s : HostState) (hpicks : ∀ v ∈ picks, v ∈ nodes)
    (hdone : ∀ v ∈ nodes,
      (Threads.after (tryQuiesceNode g h) picks (startTrading s)).buyers v = .finished)
    (v : GlobalNodeID) :
    (Threads.after (tryQuiesceNode g h) picks (startTrading s)).pool.settled v =
      ((Threads.after (tryQuiesceNode g h) picks (startTrading s)).host.data v).sold := by
  have hwait : ∀ v ∉ nodes,
      (Threads.after (tryQuiesceNode g h) picks (startTrading s)).buyers v = .waiting :=
    (Threads.after_run hpicks _).invariant
      (P := fun t : Trading H => ∀ v ∉ nodes, t.buyers v = .waiting) (fun _ _ => rfl)
      fun _ hnode _ hw => tryQuiesceNode_waiting hnode hw
  refine Pool.settled_eq_reserved fun w hw => ?_
  change (Buyer.pc _).Holds v at hw
  by_cases hmem : w ∈ nodes
  · rw [hdone w hmem] at hw
    exact hw.elim
  · rw [hwait w hmem] at hw
    exact hw.elim

/-- A node of another host that has no mirror is nobody's seller. -/
theorem unproposed_of_not_mirror {s : HostState} {t : Trading H} (hl : t.Ledger g h s.data)
    {v : GlobalNodeID} (hv : v ∉ g.masters h) (hmirror : v ∉ g.mirrors h) :
    t.unproposed g h v = (s.data v).sold := by
  have hnone (k : Fin H) : ∀ p ∈ (t.remoteEdges k).edges, p.dst ≠ v := fun p hp hdst =>
    hmirror (hdst ▸ (hl.proposal k p hp).2.1)
  have htotal : t.remoteEdges.total (byDst v) = 0 :=
    Finset.sum_eq_zero fun k _ => keyedSum_eq_zero _ fun p hp => if_neg (hnone k p hp)
  have hsold : t.pool.settled v = (s.data v).sold := by
    by_contra hne
    obtain ⟨k, p, hp, hdst⟩ := hl.raised v hv hne
    exact hnone k p hp hdst
  rw [Trading.unproposed, if_neg hv, htotal, sub_zero, hsold]

/-- The mirrors are raised by what is proposed just when nothing is left unproposed. -/
theorem raised_iff_unproposed (hnodes : ∀ v ∈ nodes, v ∈ g.masters h) (s : HostState)
    (hpicks : ∀ v ∈ picks, v ∈ nodes)
    (hdone : ∀ v ∈ nodes,
      (Threads.after (tryQuiesceNode g h) picks (startTrading s)).buyers v = .finished) :
    let t := Threads.after (tryQuiesceNode g h) picks (startTrading s)
    (∀ v ∈ g.mirrors h, (t.host.data v).sold - (s.data v).sold = t.remoteEdges.total (byDst v)) ↔
      t.unproposed g h = (startTrading s).unproposed g h := by
  intro t
  have hledger : t.Ledger g h s.data :=
    trading_ledger ((Threads.after_run hpicks _).mono fun v hv => hnodes v hv)
  have hunproposed (v : GlobalNodeID) (hv : v ∉ g.masters h) :
      t.unproposed g h v = (t.host.data v).sold - t.remoteEdges.total (byDst v) := by
    rw [Trading.unproposed, if_neg hv, settled_of_finished s hpicks hdone v]
  constructor
  · intro hraised
    funext v
    rw [startTrading_unproposed]
    by_cases hv : v ∈ g.masters h
    · rw [Trading.unproposed, if_pos hv, if_pos hv]
    rw [if_neg hv]
    by_cases hmirror : v ∈ g.mirrors h
    · rw [hunproposed v hv]
      linarith [hraised v hmirror]
    · exact unproposed_of_not_mirror hledger hv hmirror
  · intro heq v hv
    have hv := NetworkGraph.not_master_of_mirror hv
    have hsame := congrFun heq v
    rw [startTrading_unproposed, if_neg hv, hunproposed v hv] at hsame
    linarith

end Run

/-- However the buyers of a host interleave, the mirrors of the sellers are raised by what is proposed
to them unless some buyer commits a trade with a seller that it has a proposal for. -/
theorem tryQuiesceNode_proposes_iff (g : NetworkGraph H) (h : Fin H) (nodes : List GlobalNodeID)
    (hnodes : ∀ v ∈ nodes, v ∈ g.masters h) (s : HostState) (picks : List GlobalNodeID)
    (hpicks : ∀ v ∈ picks, v ∈ nodes)
    (hdone : ∀ v ∈ nodes,
      (Threads.after (tryQuiesceNode g h) picks (startTrading s)).buyers v = .finished) :
    let t := Threads.after (tryQuiesceNode g h) picks (startTrading s)
    (∀ v ∈ g.mirrors h, (t.host.data v).sold - (s.data v).sold = t.remoteEdges.total (byDst v)) ↔
      Threads.Always (tryQuiesceNode g h) (fun node t => ¬ t.Drops g h node) picks
        (startTrading s) :=
  (raised_iff_unproposed hnodes s hpicks hdone).trans (unproposed_eq_iff hnodes s hpicks)

section Example

section Seller
local instance sellerHosts : NeZero 2 := ⟨two_ne_zero⟩

/-- Four buyers on one host; the seller, node 5, is on the other. The first buyer has two edges to
it. -/
def sellerGraph : NetworkGraph 2 where
  masters h := if h = 0 then [1, 2, 3, 4] else [5]
  mirrors h := if h = 0 then [5] else []
  getHostID v := if v = 5 then 1 else 0
  edges v :=
    if v = 1 then [tradeEdge .purchase 1 5 0, tradeEdge .purchase 1 5 0]
    else if v = 2 ∨ v = 3 ∨ v = 4 then [tradeEdge .purchase v 5 0]
    else []
  masters_nodup h := by fin_cases h <;> decide
  host_of_master {h v} hv := by
    fin_cases h <;> simp at hv
    · rcases hv with rfl | rfl | rfl | rfl <;> decide
    · simp [hv]
  mirror_mastered {h v} hv := by
    fin_cases h <;> simp at hv
    simp [hv]
  mirror_remote {h v} hv := by
    fin_cases h <;> simp at hv
    simp [hv]
  edge_local {h v e} hv he := by
    fin_cases h <;> simp at hv
    · rcases hv with rfl | rfl | rfl | rfl <;> simp at he <;> subst he <;> simp [tradeEdge]
    · subst hv
      simp at he

/-- What the buyers desire. -/
def sellerDesired (v : GlobalNodeID) : ℚ :=
  if v = 1 then 100 else if v = 2 then 5 else if v = 3 then 10 else if v = 4 then 4 else 0

/-- The seller has 10 to sell, and `sold` of it is sold. -/
def sellerHost (sold : ℚ) : HostState :=
  ⟨fun v => ⟨0, 0, if v = 5 then sold else 0, if v = 5 then 10 else 0, sellerDesired v⟩,
    fun _ _ => false⟩

def sellerTrading (sold : ℚ) (b : GlobalNodeID → Buyer) (s : TradeSet) : Trading 2 :=
  ⟨sellerHost sold, Function.update (fun _ => .empty) 1 s, b⟩

end Seller

section Moves
variable {sold : ℚ} {b : GlobalNodeID → Buyer} {s : TradeSet} {needed delta seen : ℚ}
  {rest : List OutEdge} (v : GlobalNodeID)

theorem sellerHost_sell (sold x : ℚ) :
    (sellerHost sold).modify 5 (NodeData.atomicAdd .sold x) = sellerHost (sold + x) := by
  unfold HostState.modify sellerHost
  congr 1
  funext v
  by_cases hv : v = 5
  · subst hv
    rw [HostData.modify_self]
    rfl
  · rw [HostData.modify_of_ne _ _ hv]
    simp [hv]

theorem seller_start (needed : ℚ) (hb : b v = .waiting)
    (hneed : sellerDesired v - ((sellerHost 0).data v).bought = needed) :
    tryQuiesceNode sellerGraph 0 v (sellerTrading sold b s) = sellerTrading sold
      (Function.update b v (.running needed (sellerGraph.edges v) .idle)) s := by
  unfold tryQuiesceNode
  rw [show (sellerTrading sold b s).buyers v = .waiting from hb, ← hneed]
  rfl

theorem seller_leave (hb : b v = .running needed [] .idle) :
    tryQuiesceNode sellerGraph 0 v (sellerTrading sold b s) =
      sellerTrading sold (Function.update b v .finished) s := by
  unfold tryQuiesceNode
  rw [show (sellerTrading sold b s).buyers v = _ from hb]
  rfl

theorem seller_decide (delta : ℚ)
    (hb : b v = .running needed (tradeEdge .purchase v 5 0 :: rest) .idle) (hneed : 0 < needed)
    (hmin : min needed (10 - sold) = delta) (hpos : 0 < delta) :
    tryQuiesceNode sellerGraph 0 v (sellerTrading sold b s) =
      sellerTrading sold (Function.update b v (.running needed rest (.reserving 5 delta))) s := by
  have hsurplus : ((sellerHost sold).data 5).surplus = 10 - sold := rfl
  unfold tryQuiesceNode
  rw [show (sellerTrading sold b s).buyers v = _ from hb]
  simp only [nextEdge]
  rw [if_neg (not_le.mpr hneed), if_neg (by simp [tradeEdge])]
  change Trading.setBuyer _ v (if min needed ((sellerHost sold).data 5).surplus ≤ 0 then _
    else .running needed rest (.reserving 5 (min needed ((sellerHost sold).data 5).surplus))) = _
  rw [hsurplus, hmin, if_neg (not_le.mpr hpos)]
  rfl

theorem seller_reserve (x : ℚ) (hb : b v = .running needed rest (.reserving 5 delta))
    (hsum : sold + delta = x) :
    tryQuiesceNode sellerGraph 0 v (sellerTrading sold b s) =
      sellerTrading x (Function.update b v (.running needed rest (.comparing 5 delta x))) s := by
  unfold tryQuiesceNode
  rw [show (sellerTrading sold b s).buyers v = _ from hb]
  simp only [attempt]
  rw [show (sellerTrading sold b s).host.modify 5 (NodeData.atomicAdd .sold delta) = _ from
    sellerHost_sell sold delta, hsum, show ((sellerTrading sold b s).host.data 5).sold + delta = x
      from hsum]
  rfl

theorem seller_accept (hb : b v = .running needed rest (.comparing 5 delta seen))
    (hseen : seen ≤ 10) :
    tryQuiesceNode sellerGraph 0 v (sellerTrading sold b s) =
      sellerTrading sold (Function.update b v (.running needed rest (.committing 5 delta seen))) s := by
  unfold tryQuiesceNode
  rw [show (sellerTrading sold b s).buyers v = _ from hb]
  simp only [attempt]
  rw [if_neg (show ¬ ((sellerTrading sold b s).host.data 5).bought < seen from not_lt.mpr hseen)]
  rfl

theorem seller_reject (hb : b v = .running needed rest (.comparing 5 delta seen))
    (hseen : 10 < seen) :
    tryQuiesceNode sellerGraph 0 v (sellerTrading sold b s) =
      sellerTrading sold
        (Function.update b v (.running needed rest (.withdrawing 5 delta seen))) s := by
  unfold tryQuiesceNode
  rw [show (sellerTrading sold b s).buyers v = _ from hb]
  simp only [attempt]
  rw [if_pos (show ((sellerTrading sold b s).host.data 5).bought < seen from hseen)]
  rfl

theorem seller_withdraw (x : ℚ) (hb : b v = .running needed rest (.withdrawing 5 delta seen))
    (hsum : sold + -delta = x) :
    tryQuiesceNode sellerGraph 0 v (sellerTrading sold b s) =
      sellerTrading x (Function.update b v (.running needed rest .idle)) s := by
  unfold tryQuiesceNode
  rw [show (sellerTrading sold b s).buyers v = _ from hb]
  simp only [attempt]
  rw [atomicSubtract_eq, show (sellerTrading sold b s).host.modify 5
    (NodeData.atomicAdd .sold (-delta)) = _ from sellerHost_sell sold (-delta), hsum]
  rfl

theorem seller_commit (x : ℚ) (hb : b v = .running needed rest (.committing 5 delta seen))
    (hrest : needed - delta = x) :
    tryQuiesceNode sellerGraph 0 v (sellerTrading sold b s) =
      sellerTrading sold (Function.update b v (.running x rest .idle)) (s.emplace ⟨v, 5, delta⟩) := by
  have hset : RemoteEdges.emplace (sellerTrading sold b s).remoteEdges 1 ⟨v, 5, delta⟩ =
      (sellerTrading sold b (s.emplace ⟨v, 5, delta⟩)).remoteEdges := by
    unfold RemoteEdges.emplace sellerTrading
    dsimp only
    rw [Function.update_self, Function.update_idem]
  rw [tryQuiesceNode_committing hb, commitTrade_not_owned _ _ _ (by decide), hrest,
    show sellerGraph.getHostID 5 = 1 from rfl, hset]
  rfl

end Moves

/-- Two other buyers withdraw and free a surplus between the two trades of the first. -/
def sellerPicks : List GlobalNodeID :=
  [3, 3, 2, 2, 4, 4, 4, 4, 4, 4, 3, 2, 3, 3, 1, 1, 1, 1, 1, 2, 2, 1, 1, 1, 1, 1, 2, 3]

/-- The proposals that are left. -/
def sellerProposals : TradeSet :=
  (TradeSet.empty.emplace ⟨4, 5, 4⟩).emplace ⟨1, 5, 1⟩

theorem seller_run : ∃ b : GlobalNodeID → Buyer, (∀ v ∈ [1, 2, 3, 4], b v = .finished) ∧
    Threads.after (tryQuiesceNode sellerGraph 0) sellerPicks (startTrading (sellerHost 0)) =
      sellerTrading 10 b (sellerProposals.emplace ⟨1, 5, 5⟩) := by
  have hempty : (Function.update (fun _ => TradeSet.empty) 1 .empty : RemoteEdges 2) =
      fun _ => TradeSet.empty := Function.update_eq_self 1 _
  have hbits : ((sellerHost 0).clearBits .bought).clearBits .sold = sellerHost 0 := by
    unfold HostState.clearBits sellerHost
    simp
  have hstart : startTrading (sellerHost 0) = sellerTrading 0 (fun _ => .waiting) .empty := by
    rw [sellerTrading, hempty, startTrading, hbits]
  unfold sellerPicks
  simp only [Threads.after, List.foldl_cons, List.foldl_nil]
  rw [hstart,
    seller_start 3 10 rfl (by decide +kernel),
    seller_decide 3 10 rfl (by decide +kernel) (by decide +kernel) (by decide +kernel),
    seller_start 2 5 rfl (by decide +kernel),
    seller_decide 2 5 rfl (by decide +kernel) (by decide +kernel) (by decide +kernel),
    seller_start 4 4 rfl (by decide +kernel),
    seller_decide 4 4 rfl (by decide +kernel) (by decide +kernel) (by decide +kernel),
    seller_reserve 4 4 rfl (by decide +kernel),
    seller_accept 4 rfl (by decide +kernel),
    seller_commit 4 0 rfl (by decide +kernel),
    seller_leave 4 rfl,
    seller_reserve 3 14 rfl (by decide +kernel),
    seller_reserve 2 19 rfl (by decide +kernel),
    seller_reject 3 rfl (by decide +kernel),
    seller_withdraw 3 9 rfl (by decide +kernel),
    seller_start 1 100 rfl (by decide +kernel),
    seller_decide 1 1 rfl (by decide +kernel) (by decide +kernel) (by decide +kernel),
    seller_reserve 1 10 rfl (by decide +kernel),
    seller_accept 1 rfl (by decide +kernel),
    seller_commit 1 99 rfl (by decide +kernel),
    seller_reject 2 rfl (by decide +kernel),
    seller_withdraw 2 5 rfl (by decide +kernel),
    seller_decide 1 5 rfl (by decide +kernel) (by decide +kernel) (by decide +kernel),
    seller_reserve 1 10 rfl (by decide +kernel),
    seller_accept 1 rfl (by decide +kernel),
    seller_commit 1 94 rfl (by decide +kernel),
    seller_leave 1 rfl,
    seller_leave 2 rfl,
    seller_leave 3 rfl]
  exact ⟨_, by simp, rfl⟩

theorem seller_total (b : GlobalNodeID → Buyer) :
    (sellerTrading 10 b (sellerProposals.emplace ⟨1, 5, 5⟩)).remoteEdges.total (byDst 5) = 5 := by
  have htotal : RemoteEdges.total (byDst 5) (Function.update (fun _ => .empty) 1
      (sellerProposals.emplace ⟨1, 5, 5⟩) : RemoteEdges 2) = 5 := by decide +kernel
  exact htotal

/-- The mirror of the seller is raised by 10, and 5 is proposed to the seller. -/
theorem tryQuiesceNode_proposes_half :
    let t := Threads.after (tryQuiesceNode sellerGraph 0) sellerPicks (startTrading (sellerHost 0))
    (∀ v ∈ sellerPicks, v ∈ sellerGraph.masters 0) ∧
      (∀ v ∈ sellerGraph.masters 0, t.buyers v = .finished) ∧ 5 ∈ sellerGraph.mirrors 0 ∧
      (t.host.data 5).sold - ((sellerHost 0).data 5).sold = 10 ∧
      t.remoteEdges.total (byDst 5) = 5 := by
  intro t
  obtain ⟨b, hb, hrun⟩ := seller_run
  have ht : t = sellerTrading 10 b (sellerProposals.emplace ⟨1, 5, 5⟩) := hrun
  have hsold : ((sellerHost 10).data 5).sold - ((sellerHost 0).data 5).sold = 10 := by
    decide +kernel
  rw [ht]
  exact ⟨by simp [sellerPicks, sellerGraph], hb, by decide, hsold, seller_total b⟩

theorem tryQuiesceNode_proposes_iff_seller :
    ¬ Threads.Always (tryQuiesceNode sellerGraph 0) (fun node t => ¬ t.Drops sellerGraph 0 node)
      sellerPicks (startTrading (sellerHost 0)) := by
  intro halways
  obtain ⟨b, hb, hrun⟩ := seller_run
  have hdone : ∀ v ∈ [1, 2, 3, 4], (Threads.after (tryQuiesceNode sellerGraph 0) sellerPicks
      (startTrading (sellerHost 0))).buyers v = .finished := by
    rw [hrun]
    exact hb
  have hraised := (tryQuiesceNode_proposes_iff sellerGraph 0 [1, 2, 3, 4] (by simp [sellerGraph])
    (sellerHost 0) sellerPicks (by simp [sellerPicks]) hdone).mpr halways 5 (by decide)
  rw [hrun, seller_total] at hraised
  have hsold : ((sellerHost 10).data 5).sold - ((sellerHost 0).data 5).sold ≠ 5 := by
    decide +kernel
  exact hsold hraised

end Example

end Wf4
