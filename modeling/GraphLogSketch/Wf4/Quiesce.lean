import GraphLogSketch.Library.Reservation
import GraphLogSketch.Library.Threads
import GraphLogSketch.Wf4.Sync
import GraphLogSketch.Wf4.TradeSet

/-! `QuiesceGraph`: buyers look for sellers among their in-edges, trades with sellers on other hosts
are proposed to them, granted in full or in part, and confirmed to the buyers. The steps on a
counter of a shared record are atomic; every schedule of them is a run. -/
namespace Wf4
open Reservation
variable {H : ℕ}

/-- Where a thread stands in its attempt to reserve from a seller. -/
abbrev TradePc := Pc GlobalNodeID ℚ

/-- The steps between the reading of a surplus and the commit: add the trade to what was sold,
compare the result with what was bought, roll back. -/
def attempt (s : HostState) : TradePc → HostState × TradePc
  | .reserving seller delta =>
    (s.modify seller (NodeData.atomicAdd .sold delta),
      .comparing seller delta ((s.data seller).sold + delta))
  | .comparing seller delta sellerSold =>
    (s, if (s.data seller).bought < sellerSold then .withdrawing seller delta sellerSold
      else .committing seller delta sellerSold)
  | .withdrawing seller delta _ => (s.modify seller (NodeData.atomicSubtract .sold delta), .idle)
  | pc => (s, pc)

def NodeData.surplus (n : NodeData) : ℚ := n.bought - n.sold

/-- A call of `TryQuiesceNode`: the amount still needed, the edges not looked at yet and the
attempt on the current seller. -/
inductive Buyer where
  | waiting
  | running (needed : ℚ) (rest : List OutEdge) (pc : TradePc)
  | finished

def Buyer.pc : Buyer → TradePc
  | .running _ _ pc => pc
  | _ => .idle

/-- A host during the first phase. -/
structure Trading (H : ℕ) where
  host : HostState
  remoteEdges : RemoteEdges H
  buyers : GlobalNodeID → Buyer

def Trading.setBuyer (s : Trading H) (node : GlobalNodeID) (b : Buyer) : Trading H :=
  { s with buyers := Function.update s.buyers node b }

/-- The head of the loop: stop, pass over the edge, or decide on a trade with its seller. -/
def nextEdge (d : HostData) (needed : ℚ) : List OutEdge → Buyer
  | [] => .finished
  | e :: rest =>
    if needed ≤ 0 then .finished
    else if e.data.type ≠ .purchase then .running needed rest .idle
    else if min needed (d e.edgeDst).surplus ≤ 0 then .running needed rest .idle
    else .running needed rest (.reserving e.edgeDst (min needed (d e.edgeDst).surplus))

/-- A trade with a seller of the host takes effect; another is put aside for the seller's host. -/
def commitTrade (g : NetworkGraph H) (h : Fin H) (node seller : GlobalNodeID) (delta : ℚ)
    (s : Trading H) : Trading H :=
  if g.isOwned h seller then
    { s with host := ((s.host.modify node (NodeData.atomicAdd .bought delta)).mark .bought
        node).mark .sold seller }
  else
    { s with remoteEdges :=
        RemoteEdges.emplace s.remoteEdges (g.getHostID seller) ⟨node, seller, delta⟩ }

/-- The next step of the thread that processes `node`. -/
def tryQuiesceNode (g : NetworkGraph H) (h : Fin H) (node : GlobalNodeID) (s : Trading H) :
    Trading H :=
  match s.buyers node with
  | .waiting => s.setBuyer node
      (.running ((s.host.data node).desired - (s.host.data node).bought) (g.edges node) .idle)
  | .running needed rest .idle => s.setBuyer node (nextEdge s.host.data needed rest)
  | .running needed rest (.committing seller delta _) =>
    (commitTrade g h node seller delta s).setBuyer node (.running (needed - delta) rest .idle)
  | .running needed rest pc =>
    { s with host := (attempt s.host pc).1 }.setBuyer node
      (.running needed rest (attempt s.host pc).2)
  | .finished => s

/-- A call of `TryAddEdge`, which ends with the amount it granted. -/
inductive Proposal where
  | waiting
  | running (pc : TradePc)
  | finished (granted : ℚ)

def Proposal.pc : Proposal → TradePc
  | .running pc => pc
  | _ => .idle

/-- A host during the second phase, with a thread for each of `n` received proposals. -/
structure Granting (H n : ℕ) where
  host : HostState
  remoteEdges : RemoteEdges H
  proposals : Fin n → Proposal

def Granting.setProposal {n : ℕ} (s : Granting H n) (i : Fin n) (p : Proposal) : Granting H n :=
  { s with proposals := Function.update s.proposals i p }

/-- The trade is sold; the buyer's host is told how much of the proposal was granted. -/
def grantTrade (g : NetworkGraph H) (edge : ProposedEdge ℚ) (delta : ℚ) {n : ℕ}
    (s : Granting H n) : Granting H n :=
  { s with
    host := s.host.mark .sold edge.dst
    remoteEdges := RemoteEdges.emplace s.remoteEdges (g.getHostID edge.src) ⟨edge.src, edge.dst, delta⟩ }

/-- The next step of the thread that processes the proposal `edges[i]`. -/
def tryAddEdge (g : NetworkGraph H) (edges : List (ProposedEdge ℚ)) (i : Fin edges.length)
    (s : Granting H edges.length) : Granting H edges.length :=
  match s.proposals i with
  | .waiting =>
    if min (edges.get i).weight (s.host.data (edges.get i).dst).surplus ≤ 0 then
      s.setProposal i (.finished 0)
    else
      s.setProposal i (.running (.reserving (edges.get i).dst
        (min (edges.get i).weight (s.host.data (edges.get i).dst).surplus)))
  | .running .idle => s.setProposal i (.finished 0)
  | .running (.committing _ delta _) =>
    (grantTrade g (edges.get i) delta s).setProposal i (.finished delta)
  | .running pc =>
    { s with host := (attempt s.host pc).1 }.setProposal i (.running (attempt s.host pc).2)
  | .finished _ => s

def addPurchaseEdge (s : HostState) (edge : ProposedEdge ℚ) : HostState :=
  (s.modify edge.src (NodeData.atomicAdd .bought edge.weight)).mark .bought edge.src

def addPurchaseEdges (s : HostState) (edges : List (ProposedEdge ℚ)) : HostState :=
  edges.foldl addPurchaseEdge s

/-- The first phase starts with clear bitsets and empty sets. -/
def startTrading (s : HostState) : Trading H :=
  ⟨(s.clearBits .bought).clearBits .sold, fun _ => TradeSet.empty, fun _ => .waiting⟩

def startGranting (h : Fin H) (s : Trading H) (n : ℕ) : Granting H n :=
  ⟨s.host, sentEdges h s.remoteEdges, fun _ => .waiting⟩

/-- A run of `QuiesceGraph` on all hosts, up to the two closing synchronisations. The received
proposals run as one pool of threads, the received grants are added in some order. -/
structure QuiesceRun (g : NetworkGraph H) (entry : Hosts H) where
  traded : Fin H → Trading H
  trades : ∀ h, Threads.Run (g.masters h) (tryQuiesceNode g h) (startTrading (entry h)) (traded h)
  trades_end : ∀ h, ∀ node ∈ g.masters h, (traded h).buyers node = .finished
  granted : ∀ h, Granting H (receivedEdges (fun k => (traded k).remoteEdges) h).length
  grants : ∀ h, Threads.Run (List.finRange _)
    (tryAddEdge g (receivedEdges (fun k => (traded k).remoteEdges) h))
    (startGranting h (traded h) _) (granted h)
  grants_end : ∀ h i, ∃ delta, (granted h).proposals i = .finished delta
  decided : Fin H → List (ProposedEdge ℚ)
  decided_perm : ∀ h, (decided h).Perm (receivedEdges (fun k => (granted k).remoteEdges) h)

namespace QuiesceRun
variable {g : NetworkGraph H} {entry : Hosts H}

abbrev proposed (r : QuiesceRun g entry) (h : Fin H) : List (ProposedEdge ℚ) :=
  receivedEdges (fun k => (r.traded k).remoteEdges) h

/-- The hosts when the three phases have ended. -/
def ended (r : QuiesceRun g entry) : Hosts H := fun h =>
  addPurchaseEdges (r.granted h).host (r.decided h)

/-- The hosts when `QuiesceGraph` returns. -/
def final (r : QuiesceRun g entry) : Hosts H := reduceSet g .bought (reduceSet g .sold r.ended)

end QuiesceRun
end Wf4
