import GraphLogSketch.Wf4.MirrorCoherence
import GraphLogSketch.Wf4.QuiesceProgress

/-! What a whole run of `QuiesceGraph` does to the masters and to their mirrors. -/
namespace Wf4
open Reservation
variable {H : ℕ}

section Purchases
variable (s : HostState) (l : List (ProposedEdge ℚ)) (v : GlobalNodeID)

theorem addPurchaseEdges_bought : ((addPurchaseEdges s l).data v).bought =
    (s.data v).bought + keyedSum (bySrc v) l := by
  induction l generalizing s with
  | nil => simp [addPurchaseEdges]
  | cons e l ih =>
    rw [addPurchaseEdges, List.foldl_cons, ← addPurchaseEdges, ih, keyedSum_cons]
    have hone : ((addPurchaseEdge s e).data v).bought =
        (s.data v).bought + if e.src = v then e.weight else 0 := modify_bought_bought ..
    rw [hone, bySrc, ProposedEdge.key]
    split_ifs <;> ring

theorem addPurchaseEdges_sold : ((addPurchaseEdges s l).data v).sold = (s.data v).sold := by
  induction l generalizing s with
  | nil => rfl
  | cons e l ih =>
    rw [addPurchaseEdges, List.foldl_cons, ← addPurchaseEdges, ih]
    exact modify_bought_sold ..

theorem addPurchaseEdges_desired :
    ((addPurchaseEdges s l).data v).desired = (s.data v).desired := by
  induction l generalizing s with
  | nil => rfl
  | cons e l ih =>
    rw [addPurchaseEdges, List.foldl_cons, ← addPurchaseEdges, ih]
    exact modify_desired ..

theorem addPurchaseEdges_bitset (c : Counter) : (addPurchaseEdges s l).bitset c v =
    (s.bitset c v || decide (c = .bought ∧ ∃ e ∈ l, e.src = v)) := by
  induction l generalizing s with
  | nil => simp [addPurchaseEdges]
  | cons e l ih =>
    rw [addPurchaseEdges, List.foldl_cons, ← addPurchaseEdges, ih, addPurchaseEdge,
      HostState.mark_bitset, HostState.modify_bitset]
    cases c <;> simp [eq_comm, Bool.or_assoc, Bool.or_comm, Bool.or_left_comm]

end Purchases

/-- Everything put aside for other hosts is received by one of them. -/
theorem sum_keyedSum_received (f : GlobalNodeID × GlobalNodeID → ℚ) {remote : Fin H → RemoteEdges H}
    (hown : ∀ h, (remote h h).edges = []) :
    ∑ k, keyedSum f (receivedEdges remote k) = ∑ h, (remote h).total f := by
  simp only [keyedSum_received, RemoteEdges.total]
  rw [Finset.sum_comm]
  refine Finset.sum_congr rfl fun h _ => Finset.sum_congr rfl fun k _ => ?_
  split_ifs with hk
  · rw [← hk, hown, keyedSum_nil]
  · rfl

theorem received_keys_nodup {g : NetworkGraph H} {remote : Fin H → RemoteEdges H}
    (hsrc : ∀ h k, ∀ p ∈ (remote h k).edges, p.src ∈ g.masters h) (k : Fin H) :
    ((receivedEdges remote k).map ProposedEdge.key).Nodup := by
  rw [receivedEdges, List.map_flatMap, List.nodup_flatMap]
  constructor
  · intro h _
    split_ifs
    · exact List.nodup_nil
    · exact (remote h k).keys_nodup
  · refine (List.nodup_finRange H).imp fun {h j} hne => ?_
    rw [Function.onFun, List.disjoint_left]
    intro key hkey hkey'
    obtain ⟨p, hp, rfl⟩ := List.mem_map.mp hkey
    obtain ⟨q, hq, hpq⟩ := List.mem_map.mp hkey'
    split_ifs at hp hq
    · simp at hp
    · simp at hp
    · simp at hq
    · have hps := g.host_of_master (hsrc h k p hp)
      have hqs := g.host_of_master (hsrc j k q hq)
      have hsame : q.src = p.src := congrArg Prod.fst hpq
      exact hne (hps.symm.trans (hsame ▸ hqs))

namespace QuiesceRun
variable {g : NetworkGraph H} {entry : Hosts H} (r : QuiesceRun g entry) {h k : Fin H}
  {v : GlobalNodeID} {p : ProposedEdge ℚ}

theorem traded_ledger (h : Fin H) : (r.traded h).Ledger g h (entry h).data :=
  trading_ledger (r.trades h)

theorem traded_idle (h : Fin H) (v : GlobalNodeID) : (r.traded h).pool.pc v = .idle := by
  by_cases hv : v ∈ g.masters h
  · exact Trading.pcs_eq (r.trades_end h v hv)
  · exact Trading.pcs_eq ((r.traded_ledger h).outside v hv)

theorem traded_settled (h : Fin H) (v : GlobalNodeID) :
    (r.traded h).pool.settled v = ((r.traded h).host.data v).sold :=
  Pool.settled_eq_reserved fun t => by rw [r.traded_idle h t]; exact id

theorem proposed_spec (hp : p ∈ r.proposed h) : g.IsNode p.src ∧ g.getHostID p.src ≠ h ∧
    p.dst ∈ g.masters h ∧ 0 < p.weight := by
  obtain ⟨k, hk, hp⟩ := mem_receivedEdges.mp hp
  obtain ⟨hsrc, hdst, hhost, hpos⟩ := (r.traded_ledger k).proposal h p hp
  have hsk := g.host_of_master hsrc
  exact ⟨NetworkGraph.isNode_of_master hsrc, hsk ▸ hk, hhost ▸ g.mirror_mastered hdst, hpos⟩

theorem traded_own (h : Fin H) : ((r.traded h).remoteEdges h).edges = [] := by
  refine List.eq_nil_iff_forall_not_mem.mpr fun p hp => ?_
  obtain ⟨_, hdst, hhost, _⟩ := (r.traded_ledger h).proposal h p hp
  exact g.mirror_remote hdst hhost

theorem granted_start (h : Fin H) (n : ℕ) : startGranting h (r.traded h) n =
    ⟨(r.traded h).host, fun _ => TradeSet.empty, fun _ => .waiting⟩ := by
  have hempty (s : TradeSet) (hs : s.edges = []) : s = TradeSet.empty := by
    cases s
    cases hs
    rfl
  rw [startGranting]
  congr 1
  funext k
  rw [sentEdges]
  split_ifs with hk
  · rw [hk, hempty _ (r.traded_own h)]
  · rfl

theorem granted_ledger (h : Fin H) :
    (r.granted h).Ledger g (r.proposed h) (r.traded h).host := by
  refine Wf4.granting_ledger (received_keys_nodup (g := g) (fun k j p hp => ?_) h)
    (fun p hp => (r.proposed_spec hp).2.2.2) ?_
  · exact ((r.traded_ledger k).proposal j p hp).1
  · rw [← r.granted_start]
    exact r.grants h

theorem granted_idle (h : Fin H) (i : Fin (r.proposed h).length) :
    (r.granted h).pool.pc i = .idle := by
  obtain ⟨delta, hd⟩ := r.grants_end h i
  exact Granting.pcs_eq hd

theorem granted_settled (h : Fin H) (v : GlobalNodeID) :
    (r.granted h).pool.settled v = ((r.granted h).host.data v).sold :=
  Pool.settled_eq_reserved fun t => by rw [r.granted_idle h t]; exact id

/-- A response goes back to the buyer's host. -/
theorem response_spec (hp : p ∈ ((r.granted h).remoteEdges k).edges) :
    p.src ∈ g.masters k ∧ k ≠ h ∧ p.dst ∈ g.masters h := by
  obtain ⟨hk, i, delta, _, hkey⟩ := (r.granted_ledger h).routed k p hp
  obtain ⟨hnode, hhost, hdst, _⟩ := r.proposed_spec (List.get_mem (r.proposed h) i)
  have hsrc : p.src = ((r.proposed h).get i).src := congrArg Prod.fst hkey
  have hd : p.dst = ((r.proposed h).get i).dst := congrArg Prod.snd hkey
  rw [← hsrc] at hnode hhost
  rw [← hd] at hdst
  exact ⟨hk ▸ hnode, hk ▸ hhost, hdst⟩

theorem granted_own (h : Fin H) : ((r.granted h).remoteEdges h).edges = [] :=
  List.eq_nil_iff_forall_not_mem.mpr fun _ hp => (r.response_spec hp).2.1 rfl

theorem decided_src (hp : p ∈ r.decided h) : p.src ∈ g.masters h := by
  obtain ⟨k, _, hp⟩ := mem_receivedEdges.mp ((r.decided_perm h).subset hp)
  exact (r.response_spec hp).1

theorem keyedSum_decided (f : GlobalNodeID × GlobalNodeID → ℚ) (h : Fin H) :
    keyedSum f (r.decided h) =
      keyedSum f (receivedEdges (fun k => (r.granted k).remoteEdges) h) :=
  keyedSum_perm f (r.decided_perm h)

theorem ended_bought (h : Fin H) (v : GlobalNodeID) : ((r.ended h).data v).bought =
    ((r.traded h).host.data v).bought + keyedSum (bySrc v) (r.decided h) := by
  rw [ended, addPurchaseEdges_bought, (r.granted_ledger h).bought]

theorem ended_sold (h : Fin H) (v : GlobalNodeID) : ((r.ended h).data v).sold =
    ((r.traded h).host.data v).sold +
      ∑ i, byDst v ((r.proposed h).get i).key * ((r.granted h).proposals i).granted := by
  rw [ended, addPurchaseEdges_sold, ← r.granted_settled, (r.granted_ledger h).settled]

theorem ended_desired (h : Fin H) (v : GlobalNodeID) :
    ((r.ended h).data v).desired = ((entry h).data v).desired := by
  rw [ended, addPurchaseEdges_desired, (r.granted_ledger h).desired, (r.traded_ledger h).desired]

theorem granted_nonneg (h : Fin H) (i : Fin (r.proposed h).length) :
    0 ≤ ((r.granted h).proposals i).granted ∧
      ((r.granted h).proposals i).granted ≤ ((r.proposed h).get i).weight := by
  obtain ⟨delta, hd⟩ := r.grants_end h i
  have hok := (r.granted_ledger h).proposal i
  rw [hd] at hok ⊢
  exact hok

/-- The responses a host receives are the grants of the others, for everything that concerns
buyers of that host only. -/
theorem keyedSum_decided_eq {f : GlobalNodeID × GlobalNodeID → ℚ}
    (hf : ∀ key, f key ≠ 0 → g.getHostID key.1 = h) : keyedSum f (r.decided h) =
      ∑ k, ∑ i, f ((r.proposed k).get i).key * ((r.granted k).proposals i).granted := by
  rw [r.keyedSum_decided, keyedSum_received]
  refine Finset.sum_congr rfl fun k _ => ?_
  rw [← (r.granted_ledger k).total, RemoteEdges.total_eq (k := h) fun j hj p hp => ?_]
  · split_ifs with hk
    · rw [hk, r.granted_own, keyedSum_nil]
    · rfl
  · by_contra hne
    exact hj (((r.granted_ledger k).routed j p hp).1.symm.trans (hf _ hne))

/-- All proposals of a buyer are received. -/
theorem sum_proposed (hv : v ∈ g.masters h) :
    ∑ k, keyedSum (bySrc v) (r.proposed k) = (r.traded h).proposedBy v := by
  rw [sum_keyedSum_received (bySrc v) r.traded_own, Trading.proposedBy]
  refine Finset.sum_eq_single_of_mem h (Finset.mem_univ h) fun j _ hj => ?_
  refine Finset.sum_eq_zero fun k _ => keyedSum_eq_zero _ fun p hp => if_neg fun hsrc => hj ?_
  have hm := ((r.traded_ledger j).proposal k p hp).1
  rw [← g.host_of_master hm, ← g.host_of_master hv]
  exact congrArg g.getHostID hsrc

/-- What is granted to a buyer comes out of what it had proposed. -/
theorem decided_le_proposed (hv : v ∈ g.masters h) :
    keyedSum (bySrc v) (r.decided h) ≤ (r.traded h).proposedBy v := by
  rw [← r.sum_proposed hv, r.keyedSum_decided_eq fun key hk => ?_]
  · refine Finset.sum_le_sum fun k _ => ?_
    rw [keyedSum_get]
    exact Finset.sum_le_sum fun i _ =>
      mul_le_mul_of_nonneg_left (r.granted_nonneg k i).2 (bySrc_nonneg v _)
  · rw [eq_of_bySrc_ne_zero hk]
    exact g.host_of_master hv

theorem decided_nonneg (v : GlobalNodeID) (h : Fin H) : 0 ≤ keyedSum (bySrc v) (r.decided h) := by
  by_cases hv : v ∈ g.masters h
  · rw [r.keyedSum_decided_eq fun key hk => eq_of_bySrc_ne_zero hk ▸ g.host_of_master hv]
    exact Finset.sum_nonneg fun k _ => Finset.sum_nonneg fun i _ =>
      mul_nonneg (bySrc_nonneg v _) (r.granted_nonneg k i).1
  · exact (keyedSum_eq_zero _ fun p hp => if_neg fun (hsrc : p.src = v) =>
      hv (hsrc ▸ r.decided_src hp)).ge

/-- The amount that `AddPurchaseEdge` adds to the buyer for trades with the seller. -/
def addedFor (buyer seller : GlobalNodeID) : ℚ :=
  keyedSum (byKey (buyer, seller)) (r.decided (g.getHostID buyer))

/-- The amount that the calls of `TryAddEdge` for this pair commit at the seller's master. -/
def committedFor (buyer seller : GlobalNodeID) : ℚ :=
  ∑ i, byKey (buyer, seller) ((r.proposed (g.getHostID seller)).get i).key *
    ((r.granted (g.getHostID seller)).proposals i).granted

/-- No accepted trade is dropped and none is applied twice. -/
theorem addedFor_eq (buyer seller : GlobalNodeID) :
    r.addedFor buyer seller = r.committedFor buyer seller := by
  rw [addedFor, r.keyedSum_decided_eq fun key hk => by rw [eq_of_byKey_ne_zero hk]]
  refine Finset.sum_eq_single_of_mem _ (Finset.mem_univ (g.getHostID seller)) fun k _ hk => ?_
  refine Finset.sum_eq_zero fun i _ => ?_
  have hdst := (r.proposed_spec (List.get_mem (r.proposed k) i)).2.2.1
  have hne : ((r.proposed k).get i).key ≠ (buyer, seller) := by
    intro hkey
    have hd : ((r.proposed k).get i).dst = seller := congrArg Prod.snd hkey
    exact hk (hd ▸ g.host_of_master hdst).symm
  rw [byKey, if_neg hne, zero_mul]

theorem sum_byKey_src (v : GlobalNodeID) (key : GlobalNodeID × GlobalNodeID) :
    ∑ seller, byKey (v, seller) key = bySrc v key := by
  simp only [byKey, bySrc, Prod.ext_iff]
  by_cases h : key.1 = v <;> simp [h]

theorem sum_byKey_dst (v : GlobalNodeID) (key : GlobalNodeID × GlobalNodeID) :
    ∑ buyer, byKey (buyer, v) key = byDst v key := by
  simp only [byKey, byDst, Prod.ext_iff]
  by_cases h : key.2 = v <;> simp [h]

/-- What a buyer gets from other hosts, split by seller. -/
theorem ended_bought_eq (hv : v ∈ g.masters h) : ((r.ended h).data v).bought =
    ((r.traded h).host.data v).bought + ∑ seller, r.addedFor v seller := by
  have hsum (l : List (ProposedEdge ℚ)) :
      ∑ seller, keyedSum (byKey (v, seller)) l = keyedSum (bySrc v) l := by
    induction l with
    | nil => simp
    | cons e l ih =>
      simp only [keyedSum_cons, Finset.sum_add_distrib, ← Finset.sum_mul, sum_byKey_src, ih]
  simp only [r.ended_bought, addedFor, g.host_of_master hv, hsum]

/-- What a seller's master sells to other hosts, split by buyer. -/
theorem ended_sold_eq (hv : v ∈ g.masters h) : ((r.ended h).data v).sold =
    ((r.traded h).host.data v).sold + ∑ buyer, r.committedFor buyer v := by
  obtain rfl := g.host_of_master hv
  simp only [r.ended_sold, committedFor]
  rw [Finset.sum_comm]
  simp only [← Finset.sum_mul, sum_byKey_dst]

/-- The closing synchronisations only write to mirrors. -/
theorem final_master (hv : v ∈ g.masters h) : (r.final h).data v = (r.ended h).data v := by
  have hm : v ∉ g.mirrors h := fun hm => NetworkGraph.not_master_of_mirror hm hv
  rw [final, reduceSet, broadcast_of_not_mirror hm, reduceSet, broadcast_of_not_mirror hm]

/-- The masters of a host, and what one of their edges' ends contributes to their sum. -/
theorem sum_masters_ite (hv : v ∈ g.masters h) (x : ℚ) :
    ∑ w ∈ (g.masters h).toFinset, (if v = w then 1 else 0) * x = x := by
  simp [ite_mul, hv]

theorem sum_bySrc_decided (h : Fin H) :
    ∑ v ∈ (g.masters h).toFinset, keyedSum (bySrc v) (r.decided h) =
      keyedSum (fun _ => 1) (r.decided h) := by
  have hall : ∀ p ∈ r.decided h, p.src ∈ g.masters h := fun p hp => r.decided_src hp
  generalize r.decided h = l at hall
  induction l with
  | nil => simp
  | cons p l ih =>
    simp only [keyedSum_cons, Finset.sum_add_distrib, one_mul]
    rw [ih fun q hq => hall q (List.mem_cons_of_mem p hq)]
    exact congrArg (· + _) (sum_masters_ite (hall p List.mem_cons_self) p.weight)

theorem sum_byDst_granted (h : Fin H) :
    ∑ v ∈ (g.masters h).toFinset,
      ∑ i, byDst v ((r.proposed h).get i).key * ((r.granted h).proposals i).granted =
      (r.granted h).remoteEdges.total fun _ => 1 := by
  rw [(r.granted_ledger h).total, Finset.sum_comm]
  refine Finset.sum_congr rfl fun i _ => ?_
  rw [one_mul]
  exact sum_masters_ite (r.proposed_spec (List.get_mem (r.proposed h) i)).2.2.1 _

end QuiesceRun

/-- The two ledger bounds survive every schedule, and nothing is lost. -/
theorem quiesceGraph_bounds {g : NetworkGraph H} {entry : Hosts H} (r : QuiesceRun g entry)
    {h : Fin H} {v : GlobalNodeID} (hv : v ∈ g.masters h) :
    ((r.ended h).data v).bought ≤
        max ((r.ended h).data v).desired ((entry h).data v).bought ∧
      ((r.ended h).data v).sold ≤ max ((r.ended h).data v).bought ((entry h).data v).sold ∧
      ((entry h).data v).bought ≤ ((r.ended h).data v).bought ∧
      ((entry h).data v).sold ≤ ((r.ended h).data v).sold := by
  have ht := r.traded_ledger h
  have hg := r.granted_ledger h
  have hbuyer : ((r.traded h).host.data v).bought + (r.traded h).proposedBy v ≤
      max ((entry h).data v).desired ((entry h).data v).bought := by
    have hok := ht.buyer v
    rw [r.trades_end h v hv] at hok
    exact hok
  have hadd := r.decided_le_proposed hv
  have hnonneg := r.decided_nonneg v h
  have hb₀ : ((entry h).data v).bought ≤ ((r.traded h).host.data v).bought := ht.pool.cap_ge v
  have hs₀ := ht.pool.settled_ge v
  have hs₁ : ((r.traded h).host.data v).sold ≤
      max ((r.traded h).host.data v).bought ((entry h).data v).sold :=
    ht.pool.reserved_le (r.traded_idle h) v
  have hs₂ : ((r.granted h).host.data v).sold ≤
      max ((r.granted h).host.data v).bought ((r.traded h).host.data v).sold :=
    hg.pool.reserved_le (r.granted_idle h) v
  have hs₃ := hg.pool.settled_ge v
  have hsold : ((r.ended h).data v).sold = ((r.granted h).host.data v).sold :=
    addPurchaseEdges_sold ..
  rw [r.granted_settled] at hs₃
  rw [r.traded_settled] at hs₀
  rw [hg.bought] at hs₂
  rw [hsold, r.ended_desired, r.ended_bought]
  refine ⟨by linarith, ?_, by linarith, by linarith⟩
  calc ((r.granted h).host.data v).sold
      ≤ max ((r.traded h).host.data v).bought ((entry h).data v).sold :=
        hs₂.trans (max_le (le_max_left _ _) hs₁)
    _ ≤ _ := max_le_max (by linarith) le_rfl

/-- The chain after its last purchase is lost: node 3 needs 3, and node 2 has 5 to sell. -/
def shortHosts : Hosts 2 := fun _ =>
  ⟨fun v => { NodeData.zero with
      bought := if v = 2 then 5 else 0
      desired := if v = 2 then 5 else if v = 3 then 3 else 0 }, fun _ _ => false⟩

theorem quiesceGraph_bounds_short : ∃ r : QuiesceRun chainGraph shortHosts,
    ((r.ended 0).data 3).bought ≤ max ((r.ended 0).data 3).desired 0 ∧
      ((r.ended 1).data 2).sold ≤ max ((r.ended 1).data 2).bought 0 := by
  obtain ⟨r⟩ := quiesceRun_nonempty chainGraph shortHosts
  refine ⟨r, ?_, ?_⟩
  · exact (quiesceGraph_bounds r (h := 0) (v := 3) (by decide)).1
  · exact (quiesceGraph_bounds r (h := 1) (v := 2) (by decide)).2.1

/-- The sum of a counter over all masters. -/
def masterTotal (g : NetworkGraph H) (c : Counter) (s : Hosts H) : ℚ :=
  ∑ h, ∑ v ∈ (g.masters h).toFinset, ((s h).data v).get c

/-- Trade is conserved: in total, and for each buyer and seller on different hosts. -/
theorem quiesceGraph_conserves {g : NetworkGraph H} {entry : Hosts H} (r : QuiesceRun g entry) :
    masterTotal g .bought r.final - masterTotal g .bought entry =
        masterTotal g .sold r.final - masterTotal g .sold entry ∧
      (∀ buyer seller, r.addedFor buyer seller = r.committedFor buyer seller) ∧
      ∀ h, ∀ v ∈ g.masters h,
        ((r.ended h).data v).bought =
          ((r.traded h).host.data v).bought + ∑ seller, r.addedFor v seller ∧
        ((r.ended h).data v).sold =
          ((r.traded h).host.data v).sold + ∑ buyer, r.committedFor buyer v := by
  refine ⟨?_, r.addedFor_eq, fun h v hv => ⟨r.ended_bought_eq hv, r.ended_sold_eq hv⟩⟩
  have hbought (h : Fin H) : ∑ v ∈ (g.masters h).toFinset, ((r.final h).data v).bought -
      ∑ v ∈ (g.masters h).toFinset, ((entry h).data v).bought =
      ∑ v ∈ (g.masters h).toFinset,
        (((r.traded h).host.data v).bought - ((entry h).data v).bought) +
        keyedSum (fun _ => 1) (r.decided h) := by
    rw [← r.sum_bySrc_decided, ← Finset.sum_sub_distrib, ← Finset.sum_add_distrib]
    refine Finset.sum_congr rfl fun v hv => ?_
    rw [r.final_master (List.mem_toFinset.mp hv), r.ended_bought]
    ring
  have hsold (h : Fin H) : ∑ v ∈ (g.masters h).toFinset, ((r.final h).data v).sold -
      ∑ v ∈ (g.masters h).toFinset, ((entry h).data v).sold =
      ∑ v ∈ (g.masters h).toFinset,
        (((r.traded h).host.data v).bought - ((entry h).data v).bought) +
        (r.granted h).remoteEdges.total fun _ => 1 := by
    rw [← r.sum_byDst_granted, (r.traded_ledger h).conserved, ← Finset.sum_sub_distrib,
      ← Finset.sum_add_distrib]
    refine Finset.sum_congr rfl fun v hv => ?_
    rw [r.final_master (List.mem_toFinset.mp hv), r.ended_sold, r.traded_settled]
    ring
  have hdecided : ∑ h, keyedSum (fun _ => 1) (r.decided h) =
      ∑ h, (r.granted h).remoteEdges.total fun _ => 1 := by
    simp only [r.keyedSum_decided]
    exact sum_keyedSum_received _ r.granted_own
  simp only [masterTotal, NodeData.get, ← Finset.sum_sub_distrib (s := Finset.univ)]
  simp only [hbought, hsold, Finset.sum_add_distrib, hdecided]

namespace QuiesceRun
variable {g : NetworkGraph H} {entry : Hosts H} (r : QuiesceRun g entry) {h : Fin H}
  {v : GlobalNodeID}

theorem final_mirror (hv : v ∈ g.mirrors h) (c : Counter) : ((r.final h).data v).get c =
    if (r.ended (g.getHostID v)).bitset c v then ((r.ended (g.getHostID v)).data v).get c
    else ((r.ended h).data v).get c := by
  cases c with
  | sold => rw [final, reduceSet_get_of_ne (by decide), reduceSet_mirror hv]
  | bought =>
    rw [final, reduceSet_mirror hv]
    exact if_congr Iff.rfl (reduceSet_get_of_ne (by decide)) (reduceSet_get_of_ne (by decide))

theorem ended_bitset_false {c : Counter} (hbit : (r.ended h).bitset c v = false) :
    (r.traded h).host.bitset c v = false ∧ (r.granted h).host.bitset c v = false ∧
      (c = .bought → ∀ p ∈ r.decided h, p.src ≠ v) := by
  rw [ended, addPurchaseEdges_bitset, Bool.or_eq_false_iff, decide_eq_false_iff_not] at hbit
  have hg := r.granted_ledger h
  refine ⟨?_, hbit.1, fun hc p hp hsrc => hbit.2 ⟨hc, p, hp, hsrc⟩⟩
  cases c with
  | bought =>
    have hb := hbit.1
    rwa [hg.bits_bought] at hb
  | sold =>
    by_contra hne
    have hb := hg.bits_sold v (by simpa using hne)
    rw [hbit.1] at hb
    exact absurd hb Bool.false_ne_true

/-- A master whose bit is clear has the counter it had at the beginning. -/
theorem ended_unmarked {c : Counter} (hv : v ∈ g.masters h)
    (hbit : (r.ended h).bitset c v = false) :
    ((r.ended h).data v).get c = ((entry h).data v).get c := by
  obtain ⟨ht, hg, hdec⟩ := r.ended_bitset_false hbit
  cases c with
  | bought =>
    have hzero : keyedSum (bySrc v) (r.decided h) = 0 :=
      keyedSum_eq_zero _ fun p hp => if_neg (hdec rfl p hp)
    simp only [NodeData.get]
    rw [r.ended_bought, hzero, add_zero]
    exact (r.traded_ledger h).unmarked_bought v ht
  | sold =>
    have hsold : ((r.ended h).data v).sold = ((r.granted h).host.data v).sold :=
      addPurchaseEdges_sold ..
    simp only [NodeData.get]
    rw [hsold, ← r.granted_settled, (r.granted_ledger h).unmarked_sold v hg, ← r.traded_settled]
    exact (r.traded_ledger h).unmarked_sold v hv ht

/-- No purchase is ever booked on a mirror. -/
theorem mirror_bought (hv : v ∉ g.masters h) :
    ((r.ended h).data v).bought = ((entry h).data v).bought := by
  have hok := (r.traded_ledger h).buyer v
  rw [(r.traded_ledger h).outside v hv] at hok
  rw [r.ended_bought, keyedSum_eq_zero (bySrc v) fun p hp => if_neg fun (hsrc : p.src = v) =>
    hv (hsrc ▸ r.decided_src hp), add_zero]
  exact hok.1

theorem mirror_sold (hv : v ∉ g.masters h) :
    ((r.ended h).data v).sold = (r.traded h).pool.settled v := by
  have hzero : ∑ i, byDst v ((r.proposed h).get i).key * ((r.granted h).proposals i).granted = 0 :=
    Finset.sum_eq_zero fun i _ => by
      have hdst := (r.proposed_spec (List.get_mem (r.proposed h) i)).2.2.1
      have hne : ((r.proposed h).get i).key.2 ≠ v := fun hd => hv (hd ▸ hdst)
      rw [byDst, if_neg hne, zero_mul]
  rw [r.ended_sold, hzero, add_zero, r.traded_settled]

/-- A mirror that was raised had a surplus when `QuiesceGraph` was entered. -/
theorem raised_room (hv : v ∉ g.masters h) (hraised : (r.traded h).pool.settled v ≠
    ((entry h).data v).sold) : ((entry h).data v).sold < ((entry h).data v).bought := by
  have ht := r.traded_ledger h
  have hge := ht.pool.settled_ge v
  have hle := ht.pool.reserved_le (r.traded_idle h) v
  have hok := ht.buyer v
  rw [ht.outside v hv] at hok
  have hlt := lt_of_le_of_ne hge (Ne.symm hraised)
  have hcap : ((r.traded h).host.data v).bought = ((entry h).data v).bought := hok.1
  change ((r.traded h).host.data v).sold ≤ max ((r.traded h).host.data v).bought _ at hle
  rw [← r.traded_settled, hcap] at hle
  rcases le_max_iff.mp hle with hb | hb
  · exact hlt.trans_le hb
  · exact absurd hlt (not_lt.mpr hb)

/-- A seller with a surplus that gets a proposal commits something, and marks itself. -/
theorem proposal_marks {k : Fin H} {p : ProposedEdge ℚ} (hp : p ∈ r.proposed k)
    (hroom : ((entry k).data p.dst).sold < ((entry k).data p.dst).bought) :
    (r.ended k).bitset .sold p.dst = true := by
  by_contra hbit
  obtain ⟨htbit, hgbit, _⟩ := r.ended_bitset_false (by simpa using hbit)
  have ht := r.traded_ledger k
  have hg := r.granted_ledger k
  have hdst := (r.proposed_spec hp).2.2.1
  have hsold : ((r.traded k).host.data p.dst).sold = ((entry k).data p.dst).sold := by
    rw [← r.traded_settled]
    exact ht.unmarked_sold _ hdst htbit
  have hcap : ((entry k).data p.dst).bought ≤ ((r.traded k).host.data p.dst).bought :=
    ht.pool.cap_ge p.dst
  obtain ⟨i, hi⟩ := List.mem_iff_get.mp hp
  obtain ⟨delta, hd⟩ := r.grants_end k i
  have hlive := hg.live i (by rw [hd]; exact nofun) (by rw [hi]; linarith)
  have hkept := hlive.kept (r.granted_idle k)
  have hsame := hg.unmarked_sold p.dst hgbit
  rw [r.granted_settled] at hsame
  rw [hi] at hkept
  exact absurd hkept (not_lt.mpr hsame.le)

end QuiesceRun

/-- Mirrors that agree with their masters when `QuiesceGraph` is entered agree with them again when
it returns. -/
theorem quiesceGraph_coherent {g : NetworkGraph H} {entry : Hosts H} (r : QuiesceRun g entry)
    (hc : MirrorsCoherent g entry) : MirrorsCoherent g r.final := by
  intro h v hv c
  have hm : v ∉ g.masters h := NetworkGraph.not_master_of_mirror hv
  have hmaster := g.mirror_mastered hv
  rw [r.final_master hmaster, r.final_mirror hv]
  split_ifs with hbit
  · rfl
  · rw [r.ended_unmarked hmaster (by simpa using hbit), ← hc h v hv c]
    cases c with
    | bought => exact r.mirror_bought hm
    | sold =>
      simp only [NodeData.get]
      rw [r.mirror_sold hm]
      by_contra hraised
      obtain ⟨k, p, hp, rfl⟩ := (r.traded_ledger h).raised v hm hraised
      obtain ⟨hsrc, _, rfl, _⟩ := (r.traded_ledger h).proposal k p hp
      have hroom := r.raised_room hm hraised
      have hs := hc h p.dst hv .sold
      have hb := hc h p.dst hv .bought
      simp only [NodeData.get] at hs hb
      rw [hs, hb] at hroom
      exact hbit (r.proposal_marks (mem_receivedEdges.mpr ⟨h, (g.mirror_remote hv).symm, hp⟩) hroom)

theorem quiesceGraph_coherent_short :
    ∃ r : QuiesceRun chainGraph shortHosts, MirrorsCoherent chainGraph r.final := by
  obtain ⟨r⟩ := quiesceRun_nonempty chainGraph shortHosts
  exact ⟨r, quiesceGraph_coherent r fun _ _ _ _ => rfl⟩

end Wf4
