import GraphLogSketch.Wf4.QuiesceAttempt

/-! The first phase. A buyer's purchases and proposals together stay within what it desires, every
change of a master is marked, and a mirror is only raised for a seller that gets a proposal. -/
namespace Wf4
open Reservation
variable {H : ℕ}

namespace Trading

def pcs (s : Trading H) (node : GlobalNodeID) : TradePc := (s.buyers node).pc

def pool (s : Trading H) : Pool GlobalNodeID GlobalNodeID ℚ := tradePool s.host s.pcs

/-- What `v` has proposed to sellers of other hosts. -/
def proposedBy (s : Trading H) (v : GlobalNodeID) : ℚ := s.remoteEdges.total (bySrc v)

variable (s : Trading H) (node v : GlobalNodeID) (b : Buyer)

@[simp] theorem setBuyer_self : (s.setBuyer node b).buyers node = b := by simp [setBuyer]

theorem setBuyer_of_ne (h : v ≠ node) : (s.setBuyer node b).buyers v = s.buyers v := by
  simp [setBuyer, h]

@[simp] theorem setBuyer_host : (s.setBuyer node b).host = s.host := rfl

@[simp] theorem setBuyer_remoteEdges : (s.setBuyer node b).remoteEdges = s.remoteEdges := rfl

theorem setBuyer_pcs : (s.setBuyer node b).pcs = Function.update s.pcs node b.pc := by
  funext v
  by_cases hv : v = node
  · subst hv
    simp [pcs]
  · simp [pcs, setBuyer_of_ne _ _ _ _ hv, hv]

theorem pool_setBuyer : (s.setBuyer node b).pool = s.pool.setPc node b.pc := by
  rw [pool, setBuyer_pcs]
  rfl

variable {s node b}

theorem pcs_eq (hb : s.buyers node = b) : s.pcs node = b.pc := congrArg Buyer.pc hb

end Trading

/-- How a call of `TryQuiesceNode` goes on without committing a trade. -/
inductive Buyer.Moves (g : NetworkGraph H) (node : GlobalNodeID) (n : NodeData) :
    Buyer → Buyer → Prop
  | stay (b : Buyer) : Moves g node n b b
  | start : Moves g node n .waiting (.running (n.desired - n.bought) (g.edges node) .idle)
  | leave (needed : ℚ) (rest : List OutEdge) : Moves g node n (.running needed rest .idle) .finished
  | pass (needed : ℚ) (e : OutEdge) (rest : List OutEdge) :
      Moves g node n (.running needed (e :: rest) .idle) (.running needed rest .idle)
  | decide (needed : ℚ) (e : OutEdge) (rest : List OutEdge) {delta : ℚ} (hd : delta ≤ needed) :
      Moves g node n (.running needed (e :: rest) .idle)
        (.running needed rest (.reserving e.edgeDst delta))
  | attempt (needed : ℚ) (rest : List OutEdge) {pc pc' : TradePc}
      (h : ∀ seller delta, pc'.Wants seller delta → pc.Wants seller delta) :
      Moves g node n (.running needed rest pc) (.running needed rest pc')

/-- A step that is no commit leaves everything but the reservations alone. -/
structure Trading.Quiet (g : NetworkGraph H) (node : GlobalNodeID) (s s' : Trading H) : Prop where
  host : QuietHost s.host s.pcs s'.host s'.pcs
  remoteEdges : s'.remoteEdges = s.remoteEdges
  others : ∀ v, v ≠ node → s'.buyers v = s.buyers v
  moves : Buyer.Moves g node (s.host.data node) (s.buyers node) (s'.buyers node)

section Step
variable {g : NetworkGraph H} {h : Fin H} {node : GlobalNodeID} {s : Trading H}

theorem Trading.quiet_setBuyer (host : HostState) {b : Buyer}
    (hq : QuietHost s.host s.pcs host (Function.update s.pcs node b.pc))
    (hmoves : Buyer.Moves g node (s.host.data node) (s.buyers node) b) :
    s.Quiet g node ({ s with host := host }.setBuyer node b) := by
  refine ⟨?_, rfl, fun v hv => setBuyer_of_ne _ node v b hv, ?_⟩
  · rw [setBuyer_pcs]
    exact hq
  · rwa [setBuyer_self]

/-- Only the buyer's bookkeeping changes. -/
theorem Trading.quiet_book {b : Buyer}
    (hmoves : Buyer.Moves g node (s.host.data node) (s.buyers node) b)
    (hpc : b.pc = s.pcs node) : s.Quiet g node (s.setBuyer node b) := by
  refine Trading.quiet_setBuyer s.host ?_ hmoves
  rw [hpc, Function.update_eq_self]
  exact .refl _ _

theorem nextEdge_quiet {needed : ℚ} {rest : List OutEdge}
    (hb : s.buyers node = .running needed rest .idle) :
    s.Quiet g node (s.setBuyer node (nextEdge s.host.data needed rest)) := by
  have hpc : s.pcs node = .idle := Trading.pcs_eq hb
  cases rest with
  | nil => exact Trading.quiet_book (hb ▸ .leave _ _) hpc.symm
  | cons e rest =>
    simp only [nextEdge]
    split_ifs with hneed htype hdelta
    · exact Trading.quiet_book (hb ▸ .leave _ _) hpc.symm
    · exact Trading.quiet_book (hb ▸ .pass _ _ _) hpc.symm
    · exact Trading.quiet_book (hb ▸ .pass _ _ _) hpc.symm
    · exact Trading.quiet_setBuyer s.host
        (quietHost_observe hpc (not_le.mp hdelta) (min_le_right _ _))
        (hb ▸ .decide _ _ _ (min_le_left _ _))

theorem attempt_quiet {needed : ℚ} {rest : List OutEdge} {pc : TradePc}
    (hb : s.buyers node = .running needed rest pc) :
    s.Quiet g node ({ s with host := (attempt s.host pc).1 }.setBuyer node
      (.running needed rest (attempt s.host pc).2)) :=
  Trading.quiet_setBuyer _ (quietHost_attempt (Trading.pcs_eq hb))
    (hb ▸ .attempt _ _ fun _ _ => attempt_wants)

/-- A step of `TryQuiesceNode` is quiet, or it commits the trade it has reserved. -/
theorem tryQuiesceNode_cases (g : NetworkGraph H) (h : Fin H) (node : GlobalNodeID)
    (s : Trading H) : s.Quiet g node (tryQuiesceNode g h node s) ∨
      ∃ needed rest seller delta sellerSold,
        s.buyers node = .running needed rest (.committing seller delta sellerSold) ∧
        tryQuiesceNode g h node s = (commitTrade g h node seller delta s).setBuyer node
          (.running (needed - delta) rest .idle) := by
  unfold tryQuiesceNode
  cases hb : s.buyers node with
  | waiting => exact Or.inl (Trading.quiet_book (hb ▸ .start) (Trading.pcs_eq hb).symm)
  | finished => exact Or.inl ⟨.refl _ _, rfl, fun _ _ => rfl, .stay _⟩
  | running needed rest pc =>
    cases pc with
    | idle => exact Or.inl (nextEdge_quiet hb)
    | committing seller delta seen => exact Or.inr ⟨_, _, _, _, _, rfl, rfl⟩
    | reserving => exact Or.inl (attempt_quiet hb)
    | comparing => exact Or.inl (attempt_quiet hb)
    | withdrawing => exact Or.inl (attempt_quiet hb)

end Step

/-- What a buyer has used of its demand, as far as it has come. -/
def Buyer.Ok (g : NetworkGraph H) (node : GlobalNodeID) (n : NodeData) (bought proposed : ℚ) :
    Buyer → Prop
  | .waiting => bought = n.bought ∧ proposed = 0
  | .running needed rest pc => bought + proposed + needed ≤ n.desired ∧
      bought + proposed ≤ max n.desired n.bought ∧ rest ⊆ g.edges node ∧
      ∀ seller delta, pc.Wants seller delta →
        delta ≤ needed ∧ ∃ e ∈ g.edges node, e.edgeDst = seller
  | .finished => bought + proposed ≤ max n.desired n.bought

theorem Buyer.Moves.ok {g : NetworkGraph H} {node : GlobalNodeID} {n n₀ : NodeData}
    {proposed : ℚ} {b b' : Buyer} (hm : Buyer.Moves g node n b b')
    (hd : n.desired = n₀.desired) (hb : b.Ok g node n₀ n.bought proposed) :
    b'.Ok g node n₀ n.bought proposed := by
  cases hm with
  | stay => exact hb
  | start =>
    obtain ⟨hbought, hzero⟩ := hb
    refine ⟨by rw [hzero, hd]; linarith, ?_, List.Subset.refl _, fun _ _ hw => hw.elim⟩
    rw [hzero, hbought, add_zero]
    exact le_max_right _ _
  | leave => exact hb.2.1
  | pass needed e rest =>
    exact ⟨hb.1, hb.2.1, fun x hx => hb.2.2.1 (List.mem_cons_of_mem e hx), fun _ _ hw => hw.elim⟩
  | decide needed e rest hdelta =>
    refine ⟨hb.1, hb.2.1, fun x hx => hb.2.2.1 (List.mem_cons_of_mem e hx), ?_⟩
    rintro seller delta ⟨rfl, rfl⟩
    exact ⟨hdelta, e, hb.2.2.1 List.mem_cons_self, rfl⟩
  | attempt needed rest hpc =>
    exact ⟨hb.1, hb.2.1, hb.2.2.1, fun seller delta hw => hb.2.2.2 seller delta (hpc _ _ hw)⟩

/-- A commit uses up as much demand as it takes. -/
theorem Buyer.Ok.commit {g : NetworkGraph H} {node seller : GlobalNodeID} {n : NodeData}
    {needed delta seen bought proposed bought' proposed' : ℚ} {rest : List OutEdge}
    (hb : (Buyer.running needed rest (.committing seller delta seen)).Ok g node n bought proposed)
    (hle : bought' + proposed' ≤ bought + proposed + delta) :
    (Buyer.running (needed - delta) rest .idle).Ok g node n bought' proposed' := by
  obtain ⟨hneed, _, hrest, hw⟩ := hb
  obtain ⟨hdelta, _⟩ := hw seller delta ⟨rfl, rfl⟩
  exact ⟨by linarith, le_max_of_le_left (by linarith), hrest, fun _ _ hw => hw.elim⟩

/-- What holds of a host throughout the first phase, which it entered with the records `e`. -/
structure Trading.Ledger (g : NetworkGraph H) (h : Fin H) (e : HostData) (s : Trading H) :
    Prop where
  pool : Inv (fun v => (e v).bought) (fun v => (e v).sold) s.pool
  desired : ∀ v, (s.host.data v).desired = (e v).desired
  outside : ∀ v, v ∉ g.masters h → s.buyers v = .waiting
  buyer : ∀ v, (s.buyers v).Ok g v (e v) (s.host.data v).bought (s.proposedBy v)
  proposal : ∀ k, ∀ p ∈ (s.remoteEdges k).edges, p.src ∈ g.masters h ∧ p.dst ∈ g.mirrors h ∧
    g.getHostID p.dst = k ∧ 0 < p.weight
  unmarked_bought : ∀ v, s.host.bitset .bought v = false → (s.host.data v).bought = (e v).bought
  unmarked_sold : ∀ v ∈ g.masters h, s.host.bitset .sold v = false →
    s.pool.settled v = (e v).sold
  raised : ∀ v, v ∉ g.masters h → s.pool.settled v ≠ (e v).sold →
    ∃ k, ∃ p ∈ (s.remoteEdges k).edges, p.dst = v
  conserved : ∑ v ∈ (g.masters h).toFinset, ((s.host.data v).bought - (e v).bought) =
    ∑ v ∈ (g.masters h).toFinset, (s.pool.settled v - (e v).sold)

section Ledger
variable {g : NetworkGraph H} {h : Fin H} {node : GlobalNodeID} {e : HostData} {s s' : Trading H}

theorem startTrading_ledger (s : HostState) : (startTrading s).Ledger g h s.data := by
  have hsettled (v : GlobalNodeID) : (startTrading (H := H) s).pool.settled v = (s.data v).sold :=
    Pool.settled_eq_reserved fun _ hh => hh.elim
  refine ⟨inv_of_idle (s := (startTrading s).pool) fun _ => rfl, fun _ => rfl, fun _ _ => rfl,
    fun v => ⟨rfl, ?_⟩,
    fun k p hp => by simp [startTrading, TradeSet.empty] at hp, fun _ _ => rfl,
    fun v _ _ => hsettled v, fun v _ hne => absurd (hsettled v) hne, ?_⟩
  · exact RemoteEdges.total_empty _
  · simp only [hsettled, sub_self]
    simp [startTrading]

theorem Trading.Quiet.ledger (hq : s.Quiet g node s') (hl : s.Ledger g h e)
    (hnode : node ∈ g.masters h) : s'.Ledger g h e := by
  have hprop (v : GlobalNodeID) : s'.proposedBy v = s.proposedBy v := by
    rw [proposedBy, proposedBy, hq.remoteEdges]
  have hsettled (v : GlobalNodeID) : s'.pool.settled v = s.pool.settled v := hq.host.settled v
  refine ⟨hq.host.inv hl.pool, fun v => (hq.host.desired v).trans (hl.desired v), fun v hv => ?_,
    fun v => ?_, hq.remoteEdges ▸ hl.proposal, fun v hb => ?_, fun v hv hb => ?_,
    fun v hv hne => ?_, ?_⟩
  · rw [hq.others v fun hvn => hv (hvn ▸ hnode)]
    exact hl.outside v hv
  · rw [hprop, hq.host.bought]
    by_cases hv : v = node
    · subst hv
      exact hq.moves.ok (hl.desired v) (hl.buyer v)
    · rw [hq.others v hv]
      exact hl.buyer v
  · rw [hq.host.bought]
    exact hl.unmarked_bought v (hq.host.bitset ▸ hb)
  · rw [hsettled]
    exact hl.unmarked_sold v hv (hq.host.bitset ▸ hb)
  · rw [hq.remoteEdges]
    exact hl.raised v hv (hsettled v ▸ hne)
  · simp only [hq.host.bought, hsettled]
    exact hl.conserved

section Commit
variable {needed delta sellerSold : ℚ} {rest : List OutEdge} {seller : GlobalNodeID}

theorem sum_sub_add_ite (S : Finset GlobalNodeID) (f e : GlobalNodeID → ℚ) {i : GlobalNodeID}
    (hi : i ∈ S) (x : ℚ) :
    ∑ v ∈ S, (f v + (if i = v then x else 0) - e v) = ∑ v ∈ S, (f v - e v) + x := by
  have hsplit (v : GlobalNodeID) : f v + (if i = v then x else 0) - e v =
      f v - e v + if i = v then x else 0 := by ring
  simp only [hsplit, Finset.sum_add_distrib, Finset.sum_ite_eq, hi, if_true]

theorem commitTrade_owned (node : GlobalNodeID) (delta : ℚ) (s : Trading H)
    (hs : seller ∈ g.masters h) : commitTrade g h node seller delta s =
      { s with
        host := ((s.host.modify node (NodeData.atomicAdd .bought delta)).mark
          .bought node).mark .sold seller } := if_pos (g.isOwned_iff.mpr hs)

theorem commitTrade_not_owned (node : GlobalNodeID) (delta : ℚ) (s : Trading H)
    (hs : seller ∉ g.masters h) : commitTrade g h node seller delta s =
      { s with
        remoteEdges := RemoteEdges.emplace s.remoteEdges (g.getHostID seller)
          ⟨node, seller, delta⟩ } := if_neg (by simpa using hs)

/-- Whoever the seller is, the trade is settled with it. -/
theorem Trading.commit_settled
    (hb : s.buyers node = .running needed rest (.committing seller delta sellerSold))
    (v : GlobalNodeID) : ((commitTrade g h node seller delta s).setBuyer node
      (.running (needed - delta) rest .idle)).pool.settled v =
      s.pool.settled v + if seller = v then delta else 0 := by
  have hpc : s.pool.pc node = _ := Trading.pcs_eq hb
  rw [Trading.pool_setBuyer]
  by_cases hs : seller ∈ g.masters h
  · rw [commitTrade_owned node delta s hs]
    refine Eq.trans (congrArg (fun q : Pool GlobalNodeID GlobalNodeID ℚ =>
      (q.setPc node .idle).settled v) (tradePool_buy node delta)) ?_
    exact Pool.commit_settled (s := s.pool.grow node delta) hpc v
  · rw [commitTrade_not_owned node delta s hs]
    exact Pool.commit_settled (s := s.pool) hpc v

theorem Trading.Ledger.delta_pos (hl : s.Ledger g h e)
    (hb : s.buyers node = .running needed rest (.committing seller delta sellerSold)) :
    0 < delta := hl.pool.positive_amount (Trading.pcs_eq hb)

/-- The other buyers go on where they were. -/
theorem Trading.commit_buyers_of_ne (seller : GlobalNodeID) (delta : ℚ) (b : Buyer)
    {v : GlobalNodeID} (hv : v ≠ node) :
    ((commitTrade g h node seller delta s).setBuyer node b).buyers v = s.buyers v := by
  rw [Trading.setBuyer_of_ne _ _ _ _ hv]
  by_cases hs : seller ∈ g.masters h
  · rw [commitTrade_owned node delta s hs]
  · rw [commitTrade_not_owned node delta s hs]

theorem Trading.Ledger.commit_outside (hl : s.Ledger g h e) (hnode : node ∈ g.masters h)
    (seller : GlobalNodeID) (delta : ℚ) (b : Buyer) {v : GlobalNodeID} (hv : v ∉ g.masters h) :
    ((commitTrade g h node seller delta s).setBuyer node b).buyers v = .waiting := by
  have hvn : v ≠ node := fun hvn => hv (hvn ▸ hnode)
  rw [Trading.commit_buyers_of_ne seller delta b hvn]
  exact hl.outside v hv

/-- A trade with a seller of the host: buyer and seller are charged at once. -/
theorem Trading.Ledger.commit_local (hl : s.Ledger g h e) (hnode : node ∈ g.masters h)
    (hb : s.buyers node = .running needed rest (.committing seller delta sellerSold))
    (hs : seller ∈ g.masters h) :
    ((commitTrade g h node seller delta s).setBuyer node
      (.running (needed - delta) rest .idle)).Ledger g h e := by
  have hpos := hl.delta_pos hb
  have hpc : s.pool.pc node = _ := Trading.pcs_eq hb
  set s' := (commitTrade g h node seller delta s).setBuyer node
    (.running (needed - delta) rest .idle) with hs'
  have hcommit := commitTrade_owned node delta s hs
  have hpool : s'.pool = (s.pool.grow node delta).setPc node .idle := by
    rw [hs', Trading.pool_setBuyer, hcommit]
    exact congrArg (fun q => q.setPc node .idle) (tradePool_buy node delta)
  have hbought (v : GlobalNodeID) : (s'.host.data v).bought =
      (s.host.data v).bought + if node = v then delta else 0 := by
    rw [hs', Trading.setBuyer_host, hcommit]
    exact modify_bought_bought ..
  have hsettled (v : GlobalNodeID) : s'.pool.settled v =
      s.pool.settled v + if seller = v then delta else 0 := Trading.commit_settled hb v
  have hbits (c : Counter) (v : GlobalNodeID) (hbit : s'.host.bitset c v = false) :
      s.host.bitset c v = false ∧ (c = .bought → v ≠ node) ∧ (c = .sold → v ≠ seller) := by
    rw [hs', Trading.setBuyer_host, hcommit, HostState.mark_bitset, HostState.mark_bitset] at hbit
    simp only [Bool.or_eq_false_iff, decide_eq_false_iff_not] at hbit
    exact ⟨hbit.2.2, fun hc hv => hbit.2.1 ⟨hc, hv⟩, fun hc hv => hbit.1 ⟨hc, hv⟩⟩
  have hremote : s'.remoteEdges = s.remoteEdges := by
    rw [hs', Trading.setBuyer_remoteEdges, hcommit]
  constructor
  case outside => exact fun v => hl.commit_outside hnode seller delta _
  case proposal => exact hremote ▸ hl.proposal
  case pool =>
    rw [hpool]
    exact (hl.pool.grow hpos.le).commit hpc
  case desired =>
    intro v
    rw [hs', Trading.setBuyer_host, hcommit]
    exact (modify_desired ..).trans (hl.desired v)
  case buyer =>
    intro v
    have hok := hl.buyer v
    have hprop : s'.proposedBy v = s.proposedBy v := by
      rw [Trading.proposedBy, Trading.proposedBy, hremote]
    rw [hprop, hbought]
    by_cases hv : v = node
    · subst hv
      rw [hb] at hok
      rw [hs', Trading.setBuyer_self, if_pos rfl]
      exact hok.commit (by linarith)
    · rwa [Trading.commit_buyers_of_ne seller delta _ hv, if_neg (Ne.symm hv), add_zero]
  case unmarked_bought =>
    intro v hbit
    obtain ⟨hbit, hne, _⟩ := hbits _ v hbit
    rw [hbought, if_neg (Ne.symm (hne rfl)), add_zero]
    exact hl.unmarked_bought v hbit
  case unmarked_sold =>
    intro v hv hbit
    obtain ⟨hbit, _, hne⟩ := hbits _ v hbit
    rw [hsettled, if_neg (Ne.symm (hne rfl)), add_zero]
    exact hl.unmarked_sold v hv hbit
  case raised =>
    intro v hv hne
    have hvs : seller ≠ v := fun hvs => hv (hvs ▸ hs)
    rw [hsettled, if_neg hvs, add_zero] at hne
    rw [hremote]
    exact hl.raised v hv hne
  case conserved =>
    have hc := hl.conserved
    simp only [hbought, hsettled]
    rw [sum_sub_add_ite _ _ _ (List.mem_toFinset.mpr hnode),
      sum_sub_add_ite _ _ _ (List.mem_toFinset.mpr hs), hc]

/-- A proposal takes no more of the demand than its amount. -/
theorem Trading.commit_buyer_ok (hl : s.Ledger g h e)
    (hb : s.buyers node = .running needed rest (.committing seller delta sellerSold))
    (hs : seller ∉ g.masters h) (v : GlobalNodeID) :
    let s' := (commitTrade g h node seller delta s).setBuyer node
      (.running (needed - delta) rest .idle)
    (s'.buyers v).Ok g v (e v) (s.host.data v).bought (s'.proposedBy v) := by
  intro s'
  have hpos := hl.delta_pos hb
  have hok := hl.buyer v
  have hremote : s'.remoteEdges =
      RemoteEdges.emplace s.remoteEdges (g.getHostID seller) ⟨node, seller, delta⟩ := by
    rw [Trading.setBuyer_remoteEdges, commitTrade_not_owned node delta s hs]
  by_cases hv : v = node
  · subst hv
    rw [hb] at hok
    have hself : s'.buyers v = .running (needed - delta) rest .idle := Trading.setBuyer_self ..
    rw [hself]
    refine hok.commit ?_
    have hle : s'.proposedBy v ≤ s.proposedBy v + delta := by
      rw [Trading.proposedBy, hremote]
      refine (RemoteEdges.total_emplace_le ?_).trans ?_ <;> simp [ProposedEdge.key, hpos.le,
        Trading.proposedBy, bySrc]
    linarith
  · have heq : s'.proposedBy v = s.proposedBy v := by
      rw [Trading.proposedBy, hremote]
      exact RemoteEdges.total_emplace_of_zero (if_neg (Ne.symm hv))
    rwa [Trading.commit_buyers_of_ne seller delta _ hv, heq]

/-- A trade with a seller elsewhere stays a proposal; only the seller's mirror is raised. -/
theorem Trading.Ledger.commit_remote (hl : s.Ledger g h e) (hnode : node ∈ g.masters h)
    (hb : s.buyers node = .running needed rest (.committing seller delta sellerSold))
    (hs : seller ∉ g.masters h) :
    ((commitTrade g h node seller delta s).setBuyer node
      (.running (needed - delta) rest .idle)).Ledger g h e := by
  have hpc : s.pool.pc node = _ := Trading.pcs_eq hb
  have hbuyer := Trading.commit_buyer_ok hl hb hs
  set s' := (commitTrade g h node seller delta s).setBuyer node
    (.running (needed - delta) rest .idle) with hs'
  have hcommit := commitTrade_not_owned node delta s hs
  have hhost : s'.host = s.host := by
    rw [hs', Trading.setBuyer_host, hcommit]
  have hremote : s'.remoteEdges =
      RemoteEdges.emplace s.remoteEdges (g.getHostID seller) ⟨node, seller, delta⟩ := by
    rw [hs', Trading.setBuyer_remoteEdges, hcommit]
  have hpool : s'.pool = s.pool.setPc node .idle := by
    rw [hs', Trading.pool_setBuyer, hcommit]
    rfl
  have hsettled (v : GlobalNodeID) : s'.pool.settled v =
      s.pool.settled v + if seller = v then delta else 0 := Trading.commit_settled hb v
  have hmaster {v : GlobalNodeID} (hv : v ∈ g.masters h) :
      s'.pool.settled v = s.pool.settled v := by
    have hvs : seller ≠ v := fun hvs => hs (hvs ▸ hv)
    rw [hsettled, if_neg hvs, add_zero]
  constructor
  case outside => exact fun v => hl.commit_outside hnode seller delta _
  case desired => exact hhost ▸ hl.desired
  case buyer => exact hhost ▸ hbuyer
  case unmarked_bought => exact hhost ▸ hl.unmarked_bought
  case pool =>
    rw [hpool]
    exact hl.pool.commit hpc
  case proposal =>
    intro k p hp
    rw [hremote] at hp
    rcases RemoteEdges.mem_emplace hp with ⟨rfl, rfl⟩ | hp
    · have hok := hl.buyer node
      rw [hb] at hok
      obtain ⟨_, x, hx, rfl⟩ := hok.2.2.2 seller delta ⟨rfl, rfl⟩
      exact ⟨hnode, NetworkGraph.edge_mirror hnode hx hs, rfl, hl.delta_pos hb⟩
    · exact hl.proposal k p hp
  case unmarked_sold =>
    intro v hv hbit
    rw [hmaster hv]
    exact hl.unmarked_sold v hv (hhost ▸ hbit)
  case raised =>
    intro v hv hne
    rw [hremote]
    by_cases hvs : seller = v
    · obtain ⟨p, hp, hkey⟩ := RemoteEdges.exists_key_emplace (r := s.remoteEdges)
        (k := g.getHostID seller) (e := ⟨node, seller, delta⟩)
      exact ⟨_, p, hp, (congrArg Prod.snd hkey).trans hvs⟩
    · rw [hsettled, if_neg hvs, add_zero] at hne
      obtain ⟨k, p, hp, hdst⟩ := hl.raised v hv hne
      exact ⟨k, p, RemoteEdges.mem_emplace_of_mem hp, hdst⟩
  case conserved =>
    have hsum : ∑ v ∈ (g.masters h).toFinset, (s'.pool.settled v - (e v).sold) =
        ∑ v ∈ (g.masters h).toFinset, (s.pool.settled v - (e v).sold) :=
      Finset.sum_congr rfl fun v hv => by rw [hmaster (List.mem_toFinset.mp hv)]
    rw [hhost, hsum]
    exact hl.conserved

end Commit

theorem tryQuiesceNode_ledger (hl : s.Ledger g h e) (hnode : node ∈ g.masters h) :
    (tryQuiesceNode g h node s).Ledger g h e := by
  rcases tryQuiesceNode_cases g h node s with hq | ⟨needed, rest, seller, delta, seen, hb, heq⟩
  · exact hq.ledger hl hnode
  · rw [heq]
    by_cases hs : seller ∈ g.masters h
    · exact hl.commit_local hnode hb hs
    · exact hl.commit_remote hnode hb hs

/-- The ledger is kept under every schedule of the first phase. -/
theorem trading_ledger {s : HostState} {s' : Trading H}
    (hrun : Threads.Run (g.masters h) (tryQuiesceNode g h) (startTrading s) s') :
    s'.Ledger g h s.data :=
  hrun.invariant (startTrading_ledger s) fun _ hnode _ hl => tryQuiesceNode_ledger hl hnode

end Ledger
end Wf4
