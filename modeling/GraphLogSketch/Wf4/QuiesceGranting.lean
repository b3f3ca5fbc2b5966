import GraphLogSketch.Wf4.QuiesceAttempt

/-! The second phase. A seller's host grants each proposal at most its amount, answers it with a
response of its own, and grants something for every seller that had a surplus. -/
namespace Wf4
open Reservation
variable {H : ℕ}

def Proposal.granted : Proposal → ℚ
  | .finished delta => delta
  | _ => 0

namespace Granting
variable {n : ℕ}

def pcs (s : Granting H n) (i : Fin n) : TradePc := (s.proposals i).pc

def pool (s : Granting H n) : Pool GlobalNodeID (Fin n) ℚ := tradePool s.host s.pcs

variable (s : Granting H n) (i j : Fin n) (p : Proposal)

@[simp] theorem setProposal_self : (s.setProposal i p).proposals i = p := by simp [setProposal]

theorem setProposal_of_ne (h : j ≠ i) : (s.setProposal i p).proposals j = s.proposals j := by
  simp [setProposal, h]

theorem setProposal_pcs : (s.setProposal i p).pcs = Function.update s.pcs i p.pc := by
  funext j
  by_cases hj : j = i
  · subst hj
    simp [pcs]
  · simp [pcs, setProposal_of_ne _ _ _ _ hj, hj]

variable {s i p}

theorem pcs_eq (hp : s.proposals i = p) : s.pcs i = p.pc := congrArg Proposal.pc hp

/-- Grants are summed thread by thread; one more grant adds its amount. -/
theorem sum_granted {s' : Granting H n} {w : Fin n → ℚ} (hi : (s.proposals i).granted = 0)
    (hother : ∀ j, j ≠ i → s'.proposals j = s.proposals j) :
    ∑ j, w j * (s'.proposals j).granted =
      ∑ j, w j * (s.proposals j).granted + w i * (s'.proposals i).granted := by
  have hrest : ∑ j ∈ Finset.univ.erase i, w j * (s'.proposals j).granted =
      ∑ j ∈ Finset.univ.erase i, w j * (s.proposals j).granted :=
    Finset.sum_congr rfl fun j hj => by rw [hother j (Finset.ne_of_mem_erase hj)]
  rw [← Finset.add_sum_erase _ _ (Finset.mem_univ i),
    ← Finset.add_sum_erase _ (fun j => w j * (s.proposals j).granted) (Finset.mem_univ i), hrest, hi]
  ring

end Granting

/-- How a call of `TryAddEdge` goes on without committing a grant. -/
inductive Proposal.Moves (edge : ProposedEdge ℚ) (seller : NodeData) : Proposal → Proposal → Prop
  | stay (p : Proposal) : Moves edge seller p p
  | refuse (h : min edge.weight seller.surplus ≤ 0) : Moves edge seller .waiting (.finished 0)
  | decide {delta : ℚ} (hd : delta ≤ edge.weight) :
      Moves edge seller .waiting (.running (.reserving edge.dst delta))
  | attempt {pc pc' : TradePc} (h : ∀ v delta, pc'.Wants v delta → pc.Wants v delta) :
      Moves edge seller (.running pc) (.running pc')
  | withdrawn : Moves edge seller (.running .idle) (.finished 0)

structure Granting.Quiet {n : ℕ} (edge : ProposedEdge ℚ) (i : Fin n) (s s' : Granting H n) :
    Prop where
  host : QuietHost s.host s.pcs s'.host s'.pcs
  remoteEdges : s'.remoteEdges = s.remoteEdges
  others : ∀ j, j ≠ i → s'.proposals j = s.proposals j
  moves : Proposal.Moves edge (s.host.data edge.dst) (s.proposals i) (s'.proposals i)

section Step
variable {n : ℕ} {edge : ProposedEdge ℚ} {i : Fin n} {s : Granting H n}

theorem Granting.quiet_setProposal (host : HostState) {p : Proposal}
    (hq : QuietHost s.host s.pcs host (Function.update s.pcs i p.pc))
    (hmoves : Proposal.Moves edge (s.host.data edge.dst) (s.proposals i) p) :
    s.Quiet edge i ({ s with host := host }.setProposal i p) := by
  refine ⟨?_, rfl, fun j hj => setProposal_of_ne _ i j p hj, ?_⟩
  · rw [setProposal_pcs]
    exact hq
  · rwa [setProposal_self]

theorem Granting.quiet_book {p : Proposal}
    (hmoves : Proposal.Moves edge (s.host.data edge.dst) (s.proposals i) p)
    (hpc : p.pc = s.pcs i) : s.Quiet edge i (s.setProposal i p) := by
  refine Granting.quiet_setProposal s.host ?_ hmoves
  rw [hpc, Function.update_eq_self]
  exact .refl _ _

end Step

/-- A step of `TryAddEdge` is quiet, or it commits the grant it has reserved. -/
theorem tryAddEdge_cases (g : NetworkGraph H) (edges : List (ProposedEdge ℚ))
    (i : Fin edges.length) (s : Granting H edges.length) :
    s.Quiet (edges.get i) i (tryAddEdge g edges i s) ∨
      ∃ seller delta sellerSold,
        s.proposals i = .running (.committing seller delta sellerSold) ∧
        tryAddEdge g edges i s =
          (grantTrade g (edges.get i) delta s).setProposal i (.finished delta) := by
  have hatt {pc : TradePc} (hp : s.proposals i = .running pc) : s.Quiet (edges.get i) i
      ({ s with host := (attempt s.host pc).1 }.setProposal i
        (.running (attempt s.host pc).2)) :=
    Granting.quiet_setProposal _ (quietHost_attempt (Granting.pcs_eq hp))
      (hp ▸ .attempt fun _ _ => attempt_wants)
  unfold tryAddEdge
  cases hp : s.proposals i with
  | waiting =>
    have hpc : s.pcs i = .idle := Granting.pcs_eq hp
    dsimp only
    split_ifs with hdelta
    · exact Or.inl (Granting.quiet_book (hp ▸ .refuse hdelta) hpc.symm)
    · exact Or.inl (Granting.quiet_setProposal s.host
        (quietHost_observe hpc (not_le.mp hdelta) (min_le_right _ _))
        (hp ▸ .decide (min_le_left _ _)))
  | finished => exact Or.inl ⟨.refl _ _, rfl, fun _ _ => rfl, .stay _⟩
  | running pc =>
    cases pc with
    | idle => exact Or.inl (Granting.quiet_book (hp ▸ .withdrawn) (Granting.pcs_eq hp).symm)
    | committing seller delta seen => exact Or.inr ⟨_, _, _, rfl, rfl⟩
    | reserving => exact Or.inl (hatt hp)
    | comparing => exact Or.inl (hatt hp)
    | withdrawing => exact Or.inl (hatt hp)

/-- A call asks for no more than its proposal, and grants no more. -/
def Proposal.Ok (edge : ProposedEdge ℚ) : Proposal → Prop
  | .waiting => True
  | .running pc => ∀ seller delta, pc.Wants seller delta → seller = edge.dst ∧ delta ≤ edge.weight
  | .finished granted => 0 ≤ granted ∧ granted ≤ edge.weight

theorem Proposal.Moves.ok {edge : ProposedEdge ℚ} {n : NodeData} {p p' : Proposal}
    (hm : Proposal.Moves edge n p p') (hpos : 0 < edge.weight) (hp : p.Ok edge) : p'.Ok edge := by
  cases hm with
  | stay => exact hp
  | refuse | withdrawn => exact ⟨le_rfl, hpos.le⟩
  | decide hd =>
    rintro seller delta ⟨rfl, rfl⟩
    exact ⟨rfl, hd⟩
  | attempt hpc => exact fun seller delta hw => hp seller delta (hpc _ _ hw)

theorem Proposal.Moves.finished_eq {edge : ProposedEdge ℚ} {n : NodeData} {delta : ℚ}
    {p : Proposal} (hm : Proposal.Moves edge n (.finished delta) p) : p = .finished delta := by
  cases hm
  rfl

/-- A quiet step grants nothing. -/
theorem Proposal.Moves.granted {edge : ProposedEdge ℚ} {n : NodeData} {p p' : Proposal}
    (hm : Proposal.Moves edge n p p') : p'.granted = p.granted := by
  cases hm <;> rfl

/-- What holds of a host throughout the second phase, which it entered as `s₁`. -/
structure Granting.Ledger (g : NetworkGraph H) (edges : List (ProposedEdge ℚ)) (s₁ : HostState)
    (s : Granting H edges.length) : Prop where
  pool : Inv (fun v => (s₁.data v).bought) (fun v => (s₁.data v).sold) s.pool
  bought : ∀ v, (s.host.data v).bought = (s₁.data v).bought
  desired : ∀ v, (s.host.data v).desired = (s₁.data v).desired
  bits_bought : s.host.bitset .bought = s₁.bitset .bought
  bits_sold : ∀ v, s₁.bitset .sold v = true → s.host.bitset .sold v = true
  unmarked_sold : ∀ v, s.host.bitset .sold v = false → s.pool.settled v = (s₁.data v).sold
  proposal : ∀ i, (s.proposals i).Ok (edges.get i)
  settled : ∀ v, s.pool.settled v = (s₁.data v).sold +
    ∑ i, byDst v (edges.get i).key * (s.proposals i).granted
  routed : ∀ k, ∀ p ∈ (s.remoteEdges k).edges, g.getHostID p.src = k ∧
    ∃ i delta, s.proposals i = .finished delta ∧ p.key = (edges.get i).key
  total : ∀ f, s.remoteEdges.total f = ∑ i, f (edges.get i).key * (s.proposals i).granted
  live : ∀ i, s.proposals i ≠ .waiting →
    (s₁.data (edges.get i).dst).sold < (s₁.data (edges.get i).dst).bought →
    s.pool.Live (fun v => (s₁.data v).sold) (edges.get i).dst

section Ledger
variable {g : NetworkGraph H} {edges : List (ProposedEdge ℚ)} {s₁ : HostState}
  {s s' : Granting H edges.length} {i : Fin edges.length}

theorem start_ledger (g : NetworkGraph H) (edges : List (ProposedEdge ℚ)) (s₁ : HostState) :
    Granting.Ledger g edges s₁ ⟨s₁, fun _ => TradeSet.empty, fun _ => .waiting⟩ := by
  have hsettled (v : GlobalNodeID) : (Granting.pool (H := H) (n := edges.length)
      ⟨s₁, fun _ => TradeSet.empty, fun _ => .waiting⟩).settled v = (s₁.data v).sold :=
    Pool.settled_eq_reserved fun _ hh => hh.elim
  refine ⟨inv_of_idle (s := Granting.pool ⟨s₁, fun _ => TradeSet.empty, fun _ => .waiting⟩)
    fun _ => rfl, fun _ => rfl, fun _ => rfl, rfl, fun _ => id, fun v _ => hsettled v,
    fun _ => trivial, fun v => ?_, fun k p hp => by simp [TradeSet.empty] at hp, fun f => ?_,
    fun i hi => absurd rfl hi⟩
  · rw [hsettled]
    simp [Proposal.granted]
  · rw [RemoteEdges.total_empty]
    simp [Proposal.granted]

/-- A call that has been made keeps what it stands for through a quiet step. -/
theorem Granting.Quiet.finished (hq : s.Quiet (edges.get i) i s') {j : Fin edges.length}
    {delta : ℚ} (hj : s.proposals j = .finished delta) : s'.proposals j = .finished delta := by
  by_cases hji : j = i
  · subst hji
    exact (hj ▸ hq.moves).finished_eq
  · rw [hq.others j hji, hj]

/-- The first step of a call on a seller with a surplus keeps some of it within reach. -/
theorem Granting.Quiet.live_of_waiting (hq : s.Quiet (edges.get i) i s')
    (hl : s.Ledger g edges s₁) (hpos : ∀ e ∈ edges, 0 < e.weight) (hw : s.proposals i = .waiting)
    (hi : s'.proposals i ≠ .waiting)
    (hroom : (s₁.data (edges.get i).dst).sold < (s₁.data (edges.get i).dst).bought) :
    s'.pool.Live (fun v => (s₁.data v).sold) (edges.get i).dst := by
  have hm := hq.moves
  rw [hw] at hm
  generalize hp' : s'.proposals i = p' at hm hi
  cases hm with
  | stay => exact absurd rfl hi
  | refuse h =>
    have hfull : (s.host.data (edges.get i).dst).surplus ≤ 0 :=
      (min_le_iff.mp h).resolve_left (not_le.mpr (hpos _ (List.get_mem _ _)))
    exact hq.host.live hl.pool (hl.pool.live_of_full hroom hfull)
  | decide hd =>
    refine Or.inr ⟨i, ?_⟩
    rw [show s'.pool.pc i = _ from Granting.pcs_eq hp']
    rfl

theorem Granting.Quiet.ledger (hq : s.Quiet (edges.get i) i s') (hl : s.Ledger g edges s₁)
    (hpos : ∀ e ∈ edges, 0 < e.weight) : s'.Ledger g edges s₁ := by
  have hsettled (v : GlobalNodeID) : s'.pool.settled v = s.pool.settled v := hq.host.settled v
  have hgranted (j : Fin edges.length) : (s'.proposals j).granted = (s.proposals j).granted := by
    by_cases hj : j = i
    · subst hj
      exact hq.moves.granted
    · rw [hq.others j hj]
  constructor
  case pool => exact hq.host.inv hl.pool
  case bought => exact fun v => (hq.host.bought v).trans (hl.bought v)
  case desired => exact fun v => (hq.host.desired v).trans (hl.desired v)
  case bits_bought => exact hq.host.bitset ▸ hl.bits_bought
  case bits_sold => exact hq.host.bitset ▸ hl.bits_sold
  case unmarked_sold =>
    intro v hb
    rw [hsettled]
    exact hl.unmarked_sold v (hq.host.bitset ▸ hb)
  case proposal =>
    intro j
    by_cases hj : j = i
    · subst hj
      exact hq.moves.ok (hpos _ (List.get_mem _ _)) (hl.proposal j)
    · rw [hq.others j hj]
      exact hl.proposal j
  case settled =>
    intro v
    simp only [hsettled, hgranted]
    exact hl.settled v
  case routed =>
    intro k p hp
    rw [hq.remoteEdges] at hp
    obtain ⟨hk, j, delta, hj, hkey⟩ := hl.routed k p hp
    exact ⟨hk, j, delta, hq.finished hj, hkey⟩
  case total =>
    intro f
    simp only [hq.remoteEdges, hgranted]
    exact hl.total f
  case live =>
    intro j hj hroom
    by_cases hw : s.proposals j = .waiting
    · have hji : j = i := by
        by_contra hne
        exact hj ((hq.others j hne).trans hw)
      subst hji
      exact hq.live_of_waiting hl hpos hw hj hroom
    · exact hq.host.live hl.pool (hl.live j hw hroom)

section Commit
variable {seller : GlobalNodeID} {delta sellerSold : ℚ}

/-- Every proposal has a key of its own, so its response is new. -/
theorem Granting.Ledger.fresh (hl : s.Ledger g edges s₁)
    (hkeys : (edges.map ProposedEdge.key).Nodup) {pc : TradePc} (hp : s.proposals i = .running pc) :
    (edges.get i).key ∉
      (s.remoteEdges (g.getHostID (edges.get i).src)).edges.map ProposedEdge.key := by
  have hinj {j : Fin edges.length} (h : (edges.get j).key = (edges.get i).key) : j = i := by
    have hnd := List.nodup_iff_injective_get.mp hkeys
    have hget : (edges.map ProposedEdge.key).get ⟨j, by simp⟩ =
        (edges.map ProposedEdge.key).get ⟨i, by simp⟩ := by simpa using h
    exact Fin.ext (by simpa using hnd hget)
  intro hmem
  obtain ⟨p, hpm, hkey⟩ := List.mem_map.mp hmem
  obtain ⟨_, j, d, hj, hpk⟩ := hl.routed _ p hpm
  rw [hinj (hpk.symm.trans hkey), hp] at hj
  exact absurd hj nofun

theorem Granting.setProposal_grantTrade_of_ne (delta : ℚ) {j : Fin edges.length} (hj : j ≠ i) :
    ((grantTrade g (edges.get i) delta s).setProposal i (.finished delta)).proposals j =
      s.proposals j := Granting.setProposal_of_ne _ _ _ _ hj

/-- A grant adds its amount to every weighted sum of the grants. -/
theorem Granting.sum_commit
    (hp : s.proposals i = .running (.committing seller delta sellerSold))
    (w : Fin edges.length → ℚ) :
    ∑ j, w j * (((grantTrade g (edges.get i) delta s).setProposal i
        (.finished delta)).proposals j).granted =
      ∑ j, w j * (s.proposals j).granted + w i * delta := by
  have hzero : (s.proposals i).granted = 0 := by
    rw [hp]
    rfl
  rw [Granting.sum_granted hzero fun j hj => Granting.setProposal_grantTrade_of_ne delta hj,
    Granting.setProposal_self]
  rfl

theorem Granting.Ledger.commit (hl : s.Ledger g edges s₁)
    (hkeys : (edges.map ProposedEdge.key).Nodup)
    (hp : s.proposals i = .running (.committing seller delta sellerSold)) :
    ((grantTrade g (edges.get i) delta s).setProposal i (.finished delta)).Ledger g edges s₁ := by
  set s' := (grantTrade g (edges.get i) delta s).setProposal i (.finished delta) with hs'
  have hpc : s.pool.pc i = .committing seller delta sellerSold := Granting.pcs_eq hp
  have hpos : 0 < delta := hl.pool.positive_amount hpc
  have hok := hl.proposal i
  rw [hp] at hok
  obtain ⟨hseller, hle⟩ := hok seller delta ⟨rfl, rfl⟩
  have hpool : s'.pool = s.pool.setPc i .idle := by
    rw [hs', Granting.pool, Granting.setProposal_pcs]
    rfl
  have hsettled (v : GlobalNodeID) : s'.pool.settled v =
      s.pool.settled v + if seller = v then delta else 0 := by
    rw [hpool]
    exact Pool.commit_settled hpc v
  have hother {j : Fin edges.length} (hj : j ≠ i) : s'.proposals j = s.proposals j :=
    Granting.setProposal_grantTrade_of_ne delta hj
  have hself : s'.proposals i = .finished delta := Granting.setProposal_self ..
  have hbits (c : Counter) (v : GlobalNodeID) : s'.host.bitset c v =
      (decide (c = .sold ∧ v = (edges.get i).dst) || s.host.bitset c v) :=
    HostState.mark_bitset ..
  constructor
  case bought => exact hl.bought
  case desired => exact hl.desired
  case pool =>
    rw [hpool]
    exact hl.pool.commit hpc
  case bits_bought =>
    funext v
    rw [hbits, ← hl.bits_bought]
    simp
  case bits_sold =>
    intro v hv
    rw [hbits, hl.bits_sold v hv, Bool.or_true]
  case unmarked_sold =>
    intro v hb
    rw [hbits] at hb
    simp only [true_and, Bool.or_eq_false_iff, decide_eq_false_iff_not] at hb
    rw [hsettled, if_neg (by rw [hseller]; exact Ne.symm hb.1), add_zero]
    exact hl.unmarked_sold v hb.2
  case proposal =>
    intro j
    by_cases hj : j = i
    · subst hj
      rw [hself]
      exact ⟨hpos.le, hle⟩
    · rw [hother hj]
      exact hl.proposal j
  case settled =>
    intro v
    rw [hsettled, hl.settled v, Granting.sum_commit hp, hseller, byDst, ProposedEdge.key]
    split_ifs <;> ring
  case routed =>
    intro k p hpm
    rcases RemoteEdges.mem_emplace hpm with ⟨rfl, rfl⟩ | hpm
    · exact ⟨rfl, i, delta, hself, rfl⟩
    · obtain ⟨hk, j, d, hj, hkey⟩ := hl.routed k p hpm
      refine ⟨hk, j, d, ?_, hkey⟩
      have hji : j ≠ i := by
        rintro rfl
        rw [hp] at hj
        exact absurd hj nofun
      rw [hother hji, hj]
  case total =>
    intro f
    have htotal : s'.remoteEdges.total f = s.remoteEdges.total f + f (edges.get i).key * delta :=
      (RemoteEdges.total_emplace f).trans
        (congrArg (s.remoteEdges.total f + ·) (if_neg (hl.fresh hkeys hp)))
    rw [htotal, hl.total f, Granting.sum_commit hp]
  case live =>
    intro j hj hroom
    have hlive : s.pool.Live (fun v => (s₁.data v).sold) (edges.get j).dst := by
      by_cases hji : j = i
      · subst hji
        exact hl.live j (by rw [hp]; exact nofun) hroom
      · exact hl.live j (hother hji ▸ hj) hroom
    rw [hpool]
    exact hlive.step hl.pool (Step.commit hpc)

end Commit

/-- The ledger is kept under every schedule of the second phase. -/
theorem granting_ledger (hkeys : (edges.map ProposedEdge.key).Nodup)
    (hpos : ∀ e ∈ edges, 0 < e.weight)
    (hrun : Threads.Run (List.finRange _) (tryAddEdge g edges)
      ⟨s₁, fun _ => TradeSet.empty, fun _ => .waiting⟩ s) : s.Ledger g edges s₁ := by
  refine hrun.invariant (start_ledger g edges s₁) fun i _ s hl => ?_
  rcases tryAddEdge_cases g edges i s with hq | ⟨seller, delta, seen, hp, heq⟩
  · exact hq.ledger hl hpos
  · rw [heq]
    exact hl.commit hkeys hp

end Ledger
end Wf4
