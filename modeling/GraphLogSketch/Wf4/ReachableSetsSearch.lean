import GraphLogSketch.Wf4.ReachableSetsResult

/-! The sets as graph searches: each is joined to its root by live edges, and one that ran to its end
is what a search on a single host finds. All do when there are as many epochs as nodes. -/
namespace Wf4
open GraphSearch
variable {H : ℕ} {p : Generation H} {store : Store H} {seeds : p.Seeds} {t t' : Generating H}

/-- An edge whose draw, made in one of these expansions, is at most its weight. -/
def LiveEdge (g : NetworkGraph H) (log : List Expansion) (a b : GlobalNodeID) : Prop :=
  ∃ x ∈ log, x.node = a ∧ b ∈ liveSuccessors g x

/-- The expansions made these draws. -/
def Drew (g : NetworkGraph H) (draw : GlobalNodeID → ℕ → ℚ) (log : List Expansion) : Prop :=
  ∀ x ∈ log, x.draws = nodeDraws g (fun _ => draw) 0 x.node

/-- The graph on one host. -/
def NetworkGraph.gather (g : NetworkGraph H) : NetworkGraph 1 where
  masters _ := (List.finRange H).flatMap g.masters
  mirrors _ := []
  getHostID _ := 0
  edges := g.edges
  masters_nodup _ := by
    rw [List.nodup_flatMap]
    refine ⟨fun h _ => g.masters_nodup h, (List.nodup_finRange H).imp ?_⟩
    intro h k hk v hv hv'
    exact hk ((g.host_of_master hv).symm.trans (g.host_of_master hv'))
  host_of_master _ := Subsingleton.elim _ _
  mirror_mastered hv := by simp at hv
  mirror_remote hv := by simp at hv
  edge_local {_ v e} hv he := by
    obtain ⟨h, _, hv⟩ := List.mem_flatMap.mp hv
    obtain ⟨k, hk⟩ := NetworkGraph.isNode_iff.mp
      (NetworkGraph.edge_isNode (NetworkGraph.isNode_of_master hv) he)
    exact Or.inl (List.mem_flatMap.mpr ⟨k, List.mem_finRange k, hk⟩)

theorem NetworkGraph.gather_isNode {g : NetworkGraph H} {v : GlobalNodeID} :
    g.gather.IsNode v ↔ g.IsNode v := by
  rw [NetworkGraph.isNode_iff]
  simp [NetworkGraph.IsNode, NetworkGraph.gather, ← NetworkGraph.isNode_iff]

theorem liveSuccessors_gather (g : NetworkGraph H) (x : Expansion) :
    liveSuccessors g.gather x = liveSuccessors g x := rfl

theorem nodeDraws_gather (g : NetworkGraph H) (dist : Draws) (n : ℕ) (v : GlobalNodeID) :
    nodeDraws g.gather dist n v = nodeDraws g dist n v := rfl

/-- The search from a root on one host, when the draw for each edge is given. -/
def singleHostSearch (g : NetworkGraph H) (draw : GlobalNodeID → ℕ → ℚ) (root : GlobalNodeID) :
    Continued :=
  continueSet g.gather 0 (fun _ => draw) false [root] ⟨0, 0, {root}, {root}⟩

section Search
variable {g : NetworkGraph H} {s : PartialReachableSet} {log : List Expansion} {root : GlobalNodeID}

theorem search_edge_iff {a b : GlobalNodeID} :
    (s.search g log).Edge a b ↔ LiveEdge g log a b := by
  constructor
  · rintro ⟨out, hout, hb⟩
    obtain ⟨x, hx, he⟩ := List.mem_map.mp hout
    obtain ⟨rfl, rfl⟩ := Prod.mk.inj he
    exact ⟨x, hx, rfl, List.mem_toFinset.mp hb⟩
  · rintro ⟨x, hx, rfl, hb⟩
    exact ⟨_, List.mem_map_of_mem hx, List.mem_toFinset.mpr hb⟩

/-- Expansions of different nodes made the draws of some function. -/
theorem exists_drew (hnd : (log.map Expansion.node).Nodup)
    (hdraws : ∀ x ∈ log, x.draws.length = (g.edges x.node).length) : ∃ draw, Drew g draw log := by
  have hchoice (v : GlobalNodeID) : ∃ f : ℕ → ℚ, ∀ x ∈ log, x.node = v →
      f = fun j => x.draws.getD j 0 := by
    by_cases hv : ∃ x ∈ log, x.node = v
    · obtain ⟨x, hx, rfl⟩ := hv
      refine ⟨fun j => x.draws.getD j 0, fun y hy he => ?_⟩
      rw [List.inj_on_of_nodup_map hnd hy hx he]
    · exact ⟨fun _ => 0, fun x hx he => absurd ⟨x, hx, he⟩ hv⟩
  choose draw hdraw using hchoice
  refine ⟨draw, fun x hx => ?_⟩
  rw [nodeDraws, hdraw x.node x hx rfl, ← hdraws x hx]
  apply List.ext_getElem
  · simp
  · intro j hj _
    simp [hj]

/-- A finished search found what the edges reach that are live under its draws. -/
theorem search_complete {draw : GlobalNodeID → ℕ → ℚ} (hsound : (s.search g log).Sound root)
    (hfull : (s.search g log).Full) (hempty : s.frontier = ∅) (hdraw : Drew g draw log)
    {v : GlobalNodeID} : v ∈ s.partialReachableSet ↔ Relation.ReflTransGen
      (fun a b => b ∈ liveSuccessors g ⟨a, nodeDraws g (fun _ => draw) 0 a⟩) root v := by
  refine hfull.found_iff_of_rel hsound hempty fun x hx b => ?_
  obtain ⟨y, hy, rfl⟩ := List.mem_map.mp hx
  rw [List.mem_toFinset, ← hdraw y hy]

/-- The search on one host runs to its end. -/
theorem singleHostSearch_complete (draw : GlobalNodeID → ℕ → ℚ) (hroot : g.IsNode root) :
    let c := singleHostSearch g draw root
    (c.set.search g.gather c.log).Sound root ∧ (c.set.search g.gather c.log).Full ∧
      c.set.frontier = ∅ ∧ Drew g.gather draw c.log := by
  have hs : PartialReachableSet.WellFormed g.gather ⟨0, 0, {root}, {root}⟩ := by
    constructor
    · exact Finset.Subset.refl _
    · intro w hw
      obtain rfl := Finset.mem_singleton.mp hw
      exact NetworkGraph.gather_isNode.mpr hroot
  have hf : Enumerates [root] {root} := ⟨List.nodup_singleton root, rfl⟩
  have hstart : (PartialReachableSet.search g.gather [] ⟨0, 0, {root}, {root}⟩).Sound root ∧
      (PartialReachableSet.search g.gather [] ⟨0, 0, {root}, {root}⟩).Full :=
    ⟨start_sound root, start_full root⟩
  have hspec := continueSet_spec (h := 0) hs hf (fun _ => draw) false
  unfold singleHostSearch
  intro c
  have hsearch : (c.set.search g.gather ([] ++ c.log)).Sound root ∧
      (c.set.search g.gather ([] ++ c.log)).Full :=
    continueSet_search (Q := fun t => t.Sound root ∧ t.Full)
      (fun t v out hv ht => ⟨ht.1.expand hv out, ht.2.expand v out⟩) hs hf hstart
  refine ⟨hsearch.1, hsearch.2, ?_, fun x hx => ?_⟩
  · apply Finset.eq_empty_of_forall_notMem
    intro w hw
    exact hspec.remote w hw (hspec.wellFormed.nodes w (hspec.wellFormed.frontier_sub hw))
  · obtain ⟨_, hdraws⟩ := continueSet_draws g.gather 0 (fun _ => draw) false [root] _ x hx
    exact hdraws

theorem mem_singleHostSearch (draw : GlobalNodeID → ℕ → ℚ) (hroot : g.IsNode root)
    {v : GlobalNodeID} : v ∈ (singleHostSearch g draw root).set.partialReachableSet ↔
      Relation.ReflTransGen
        (fun a b => b ∈ liveSuccessors g ⟨a, nodeDraws g (fun _ => draw) 0 a⟩) root v := by
  obtain ⟨hsound, hfull, hempty, hdrew⟩ := singleHostSearch_complete draw hroot
  have hiff := search_complete hsound hfull hempty hdrew (v := v)
  simp only [liveSuccessors_gather, nodeDraws_gather] at hiff
  exact hiff

end Search

theorem ExchangePartialSets.log (hex : ExchangePartialSets t t') : t'.log = t.log := by
  obtain ⟨_⟩ := hex
  rfl

/-- While the sets are not forced to finish, no call forgets a node it has reached. -/
theorem Epochs.full {n : ℕ} (hep : Epochs p.graph n t t') (ht : t.Inv p store seeds)
    (hfull : ∀ s ∈ t.sets, (s.search p.graph (t.log s.key)).Full) :
    ∀ s ∈ t'.sets, (s.search p.graph (t'.log s.key)).Full := by
  induction hep with
  | zero => exact hfull
  | @succ _ _ t₁ t₂ t₃ hep hgen hex ih =>
    have hinv := hep.inv ht
    have hpass : ∀ s ∈ t₂.sets, (s.search p.graph (t₂.log s.key)).Full := by
      refine hgen.preserves hinv (P := fun t => ∀ s ∈ t.sets,
        (s.search p.graph (t.log s.key)).Full) (fun t t' ht hstep hfull => ?_) (ih ht hfull)
      obtain ⟨h, s, frontier, dist, others, hf, hwf, hr⟩ := hstep.replaces p.hosts_lt ht.valid
      refine hr.forall_sets (Q := fun s log => (s.search p.graph log).Full) ht.keys_nodup hfull
        fun hs => ?_
      exact continueSet_search (Q := Search.Full) (fun _ v out _ ht => ht.expand v out) hwf hf hs
    rw [hex.sets (hgen.inv hinv) hgen.2, hex.log]
    exact hpass

/-- The clean-up leaves a set alone on which nothing is left to do. -/
theorem GenerateSets.finished_kept {s₀ : PartialReachableSet} {log₀ : List Expansion}
    (hgen : GenerateSets p.graph true t t') (ht : t.Inv p store seeds)
    (hdone : s₀.frontier = ∅)
    (hkept : ∀ s ∈ t.sets, s.key = s₀.key → s = s₀ ∧ t.log s.key = log₀) :
    ∀ s ∈ t'.sets, s.key = s₀.key → s = s₀ ∧ t'.log s.key = log₀ := by
  refine hgen.preserves ht (P := fun t => ∀ s ∈ t.sets, s.key = s₀.key →
    s = s₀ ∧ t.log s.key = log₀) (fun t t' ht hstep hkept => ?_) hkept
  obtain ⟨h, s, frontier, dist, others, hf, hwf, hr⟩ := hstep.replaces p.hosts_lt ht.valid
  refine hr.forall_sets (Q := fun s log => s.key = s₀.key → s = s₀ ∧ log = log₀) ht.keys_nodup
    hkept fun hs hkey => ?_
  rw [hr.key] at hkey
  obtain ⟨rfl, hlog₀⟩ := hs hkey
  obtain ⟨hlog, hfr, hset⟩ := continueSet_finish (g := p.graph) (h := h) hf dist
  have hspec := continueSet_spec (h := h) hwf hf dist true
  have hsame : (continueSet p.graph h dist true frontier s).set.partialReachableSet =
      s.partialReachableSet := by
    rw [hset, hdone, Finset.filter_empty, Finset.sdiff_empty]
  refine ⟨?_, by rw [hlog, List.append_nil, hlog₀]⟩
  generalize continueSet p.graph h dist true frontier s = c at hfr hspec hsame
  obtain ⟨⟨id, ownerHost, partialReachableSet, frontier'⟩, _, _⟩ := c
  obtain ⟨id₀, ownerHost₀, partialReachableSet₀, frontier₀⟩ := s
  simp only at hfr hsame hdone
  rw [PartialReachableSet.mk.injEq]
  exact ⟨hspec.id, hspec.ownerHost, hsame, hfr.trans hdone.symm⟩

section Epochs
variable {g : NetworkGraph H} {s : PartialReachableSet} {h : Fin H} {frontier : List GlobalNodeID}
  {n : ℕ}

/-- A call that may go on keeps what the set has reached. -/
theorem subset_continueSet (hs : s.WellFormed g) (hf : Enumerates frontier s.frontier)
    (dist : Draws) :
    s.partialReachableSet ⊆ (continueSet g h dist false frontier s).set.partialReachableSet := by
  set c := continueSet g h dist false frontier s with hc
  have hfound : s.partialReachableSet ⊆ (c.set.search g.gather ([] ++ c.log)).found := by
    rw [hc]
    exact continueSet_search (Q := fun t => s.partialReachableSet ⊆ t.found)
      (fun _ _ _ _ ht => ht.trans Finset.subset_union_left) hs hf (Finset.Subset.refl _)
  exact hfound

/-- A call settles the nodes of its host that were on the frontier. -/
theorem settled_ssubset (hs : s.WellFormed g) (hf : Enumerates frontier s.frontier) (dist : Draws)
    {v : GlobalNodeID} (hv : v ∈ s.frontier) (hm : v ∈ g.masters h) :
    s.settled ⊂ (continueSet g h dist false frontier s).set.settled := by
  have hspec := continueSet_spec (h := h) hs hf dist false
  refine (Finset.ssubset_iff_of_subset fun w hw => (hspec.settled w).mpr (Or.inl hw)).mpr
    ⟨v, Finset.mem_sdiff.mpr ⟨subset_continueSet hs hf dist (hs.frontier_sub hv), fun hfr =>
      hspec.remote v hfr hm⟩, fun hset => (Finset.mem_sdiff.mp hset).2 hv⟩

theorem continueSet_done (hf : Enumerates frontier s.frontier) (dist : Draws)
    (hempty : s.frontier = ∅) :
    (continueSet g h dist false frontier s).set.frontier = ∅ := by
  have hnil : frontier = [] := (List.toFinset_eq_empty_iff frontier).mp (hf.2.trans hempty)
  rw [continueSet_eq, hnil]
  simp [startWalk, walkLocal]

theorem card_le_masters {S : Finset GlobalNodeID} (hS : ∀ v ∈ S, g.IsNode v) :
    S.card ≤ ∑ h, (g.masters h).length := by
  calc S.card
      ≤ (Finset.univ.biUnion fun h => (g.masters h).toFinset).card := by
        apply Finset.card_le_card
        intro v hv
        obtain ⟨k, hk⟩ := NetworkGraph.isNode_iff.mp (hS v hv)
        exact Finset.mem_biUnion.mpr ⟨k, Finset.mem_univ k, List.mem_toFinset.mpr hk⟩
    _ ≤ ∑ h, (g.masters h).toFinset.card := Finset.card_biUnion_le
    _ ≤ ∑ h, (g.masters h).length := Finset.sum_le_sum fun h _ => List.toFinset_card_le _

/-- The set is done, or has settled that many nodes. -/
def PartialReachableSet.Advanced (n : ℕ) (s : PartialReachableSet) : Prop :=
  s.frontier = ∅ ∨ n ≤ s.settled.card

theorem PartialReachableSet.Advanced.mono {m : ℕ} (hs : s.Advanced n) (hmn : m ≤ n) :
    s.Advanced m := hs.imp_right hmn.trans

theorem PartialReachableSet.Advanced.continueSet (hadv : s.Advanced n) (hs : s.WellFormed g)
    (hf : Enumerates frontier s.frontier) (dist : Draws) :
    (continueSet g h dist false frontier s).set.Advanced n := by
  have hspec := continueSet_spec (h := h) hs hf dist false
  rcases hadv with hempty | hle
  · exact Or.inl (continueSet_done hf dist hempty)
  · exact Or.inr (hle.trans (Finset.card_le_card fun w hw => (hspec.settled w).mpr (Or.inl hw)))

/-- Where a set waits, a call settles one more of its nodes. -/
theorem PartialReachableSet.Advanced.succ (hadv : s.Advanced n) (hwait : s.WaitsAt g h)
    (hs : s.WellFormed g) (hf : Enumerates frontier s.frontier) (dist : Draws) :
    (Wf4.continueSet g h dist false frontier s).set.Advanced (n + 1) := by
  rcases hadv with hempty | hle
  · exact Or.inl (continueSet_done hf dist hempty)
  rcases hwait with hempty | ⟨v, hv, hm⟩
  · exact Or.inl (continueSet_done hf dist hempty)
  · exact Or.inr (hle.trans_lt (Finset.card_lt_card (settled_ssubset hs hf dist hv hm)))

/-- During the pass after `n` epochs: a set is where it can go on, and has settled `n` nodes, and
another one if it has had its turn. -/
structure Generating.Advances (g : NetworkGraph H) (n : ℕ) (t : Generating H) : Prop where
  here : ∀ h, ∀ s ∈ t.partialSets h, s.WaitsAt g h
  sent : ∀ h k, ∀ s ∈ t.remotePartialSets h (hostId k), s.WaitsAt g k
  settled : ∀ s ∈ t.sets, s.Advanced (n + 1) ∨ (s.Advanced n ∧ ∃ h, s ∈ t.partialSets h)

theorem GenerateStep.advances (hstep : GenerateStep p.graph false t t') (ht : t.Inv p store seeds)
    (ha : t.Advances p.graph n) : t'.Advances p.graph n := by
  obtain ⟨h, s, frontier, dist, others, hf, hwf, hr⟩ := hstep.replaces p.hosts_lt ht.valid
  have hnd := ht.keys_nodup
  rw [hr.taken, Multiset.map_cons, Multiset.nodup_cons] at hnd
  constructor
  · intro k x hx
    exact ha.here k x (hr.partialSets k hx)
  · intro j k x hx
    rcases hr.sent j _ x hx with hx | ⟨_, _, rfl, _, hgoes⟩
    · exact ha.sent j k x hx
    · obtain ⟨l, hl, hwait⟩ := hgoes rfl
      rwa [hostId_injective p.hosts_lt hl]
  · intro x hx
    rw [hr.put, Multiset.mem_cons] at hx
    rcases hx with rfl | hx
    · left
      rcases ha.settled s hr.mem_taken with hadv | ⟨hadv, _⟩
      · exact hadv.continueSet hwf hf dist
      · exact hadv.succ (ha.here h s hr.here) hwf hf dist
    · refine (ha.settled x (hr.taken ▸ Multiset.mem_cons_of_mem hx)).imp_right ?_
      rintro ⟨hadv, k, hk⟩
      refine ⟨hadv, k, (hr.stays k x hk).resolve_left ?_⟩
      rintro rfl
      exact hnd.1 (Multiset.mem_map_of_mem _ hx)

theorem ExchangePartialSets.advances (hex : ExchangePartialSets t t') (ht : t.Inv p store seeds)
    (hempty : ∀ h, t.partialSets h = 0) (ha : t.Advances p.graph n) :
    t'.Advances p.graph (n + 1) := by
  have hdone : ∀ s ∈ t'.sets, s.Advanced (n + 1) := by
    rw [hex.sets ht hempty]
    intro s hs
    rcases ha.settled s hs with hadv | ⟨_, h, hh⟩
    · exact hadv
    · rw [hempty h] at hh
      exact absurd hh (Multiset.notMem_zero s)
  constructor
  · intro k s hs
    obtain ⟨h, hs⟩ := hex.mem_received ht hs
    exact ha.sent h k s hs
  · intro h k s hs
    rw [hex.nothing_sent] at hs
    exact absurd hs (Multiset.notMem_zero s)
  · intro s hs
    rcases t'.mem_sets.mp hs with hhere | ⟨h, k, hs'⟩ | ⟨h, i, S, _, rfl⟩
    · exact Or.inr ⟨hdone s hs, hhere⟩
    · rw [hex.nothing_sent] at hs'
      exact absurd hs' (Multiset.notMem_zero s)
    · exact Or.inl (Or.inl rfl)

theorem startGenerating_advances (p : Generation H) (store : Store H) (seeds : p.Seeds) :
    (startGenerating p store seeds).Advances p.graph 0 := by
  have hstart {h : Fin H} {s : PartialReachableSet}
      (hs : s ∈ (startGenerating p store seeds).partialSets h) : s.WaitsAt p.graph h := by
    obtain ⟨i, _, rfl⟩ := List.mem_map.mp hs
    exact Or.inr ⟨_, Finset.mem_singleton_self _, List.get_mem _ _⟩
  constructor
  · intro h s hs
    exact hstart hs
  · intro h k s hs
    simp [startGenerating] at hs
  · intro s hs
    obtain ⟨h, i, hi, rfl⟩ := mem_startGenerating hs
    exact Or.inr ⟨Or.inr (Nat.zero_le _), h, Multiset.mem_coe.mpr (List.mem_map_of_mem hi)⟩

theorem Epochs.advances {m : ℕ} (hep : Epochs p.graph m t t') (ht : t.Inv p store seeds)
    (ha : t.Advances p.graph n) : t'.Advances p.graph (n + m) := by
  induction hep with
  | zero => exact ha
  | succ hep hgen hex ih =>
    have hinv := hep.inv ht
    have hpass := hgen.preserves hinv (fun _ _ ht hstep => hstep.advances ht) (ih ht ha)
    exact hex.advances (hgen.inv hinv) hgen.2 hpass

end Epochs

namespace GenerationRun
variable {epochs : ℕ} (r : GenerationRun p epochs store)

/-- The frontier of the set became empty before the clean-up. -/
def FrontierEmptied (h : Fin H) (i : UInt64) : Prop :=
  ∃ s ∈ r.expanded.sets, s.key = slotKey h i ∧ s.frontier = ∅

theorem expanded_full : ∀ s ∈ r.expanded.sets,
    (s.search p.graph (r.expanded.log s.key)).Full := by
  apply r.expanding.full (startGenerating_inv p store r.seeds)
  intro s hs
  obtain ⟨h, i, _, rfl⟩ := mem_startGenerating hs
  exact start_full _

/-- With as many epochs as there are nodes, the clean-up finds every frontier empty. -/
theorem frontierEmptied (hepochs : ∑ h, (p.graph.masters h).length ≤ epochs) {h : Fin H}
    {i : UInt64} (hi : i ∈ p.slots h) : r.FrontierEmptied h i := by
  have hkey : slotKey h i ∈ r.expanded.sets.map PartialReachableSet.key := by
    rw [r.expanded_inv.keys]
    exact p.mem_keys.mpr ⟨h, i, hi, rfl⟩
  obtain ⟨s, hs, hk⟩ := Multiset.mem_map.mp hkey
  refine ⟨s, hs, hk, ?_⟩
  have hwf := r.expanded_inv.wellFormed s hs
  have hadvances := r.expanding.advances (startGenerating_inv p store r.seeds)
    (startGenerating_advances p store r.seeds)
  have hadv : s.Advanced (0 + epochs) := by
    rcases hadvances.settled s hs with hadv | ⟨hadv, _⟩
    · exact hadv.mono (Nat.le_succ _)
    · exact hadv
  rcases hadv with hempty | hle
  · exact hempty
  by_contra hne
  -- A node on the frontier is one that was not settled.
  have hlt : s.settled.card < s.partialReachableSet.card := by
    apply Finset.card_lt_card
    rw [PartialReachableSet.settled]
    exact Finset.sdiff_ssubset hwf.frontier_sub (Finset.nonempty_iff_ne_empty.mpr hne)
  have hbound := card_le_masters hwf.nodes
  omega

/-- A set that was done before the clean-up is stored as it was. -/
theorem stored_full {h : Fin H} {i : UInt64} {S : Finset GlobalNodeID}
    (hS : S ∈ r.final.reachableSets h i) (hdone : r.FrontierEmptied h i) :
    ((Generating.storedSet h i S).search p.graph (r.final.log (slotKey h i))).Full := by
  obtain ⟨s₀, hs₀, hkey, hempty⟩ := hdone
  have hexpanded : ∀ s ∈ r.expanded.sets, s.key = s₀.key →
      s = s₀ ∧ r.expanded.log s.key = r.expanded.log s₀.key := by
    intro s hs hk
    exact ⟨Multiset.inj_on_of_nodup_map r.expanded_inv.keys_nodup s hs s₀ hs₀ hk, by rw [hk]⟩
  have hcleaned := r.cleaning.finished_kept r.expanded_inv hempty hexpanded
  have hreturned : ∀ s ∈ r.returned.sets, s.key = s₀.key →
      s = s₀ ∧ r.returned.log s.key = r.expanded.log s₀.key := by
    rw [r.returning.sets r.cleaned_inv r.cleaning.2, r.returning.log]
    exact hcleaned
  have hfinal := r.storing.finished_kept r.returned_inv hempty hreturned
  have hmem : Generating.storedSet h i S ∈ r.final.sets :=
    r.final.mem_sets.mpr (Or.inr (Or.inr ⟨h, i, S, hS, rfl⟩))
  obtain ⟨hs, hlog⟩ := hfinal _ hmem hkey.symm
  have hlog' : r.final.log (slotKey h i) = r.expanded.log s₀.key := hlog
  rw [hs, hlog']
  exact r.expanded_full s₀ hs₀

end GenerationRun

/-- A set expands each node at most once, drawing each of its edges once, and is joined to its root
by live edges. If its frontier was empty before the clean-up, it is the set of nodes that live edges
reach, for its own draws and for any draws of all nodes that agree with them, and a search on a single
host that makes these draws finds it. -/
theorem reachableSet_search {epochs : ℕ} (r : GenerationRun p epochs store) {h : Fin H} {i : UInt64}
    (hi : i ∈ p.slots h) : ∃ S, r.final.reachableSets h i = [S] ∧
      ((r.final.log (slotKey h i)).map Expansion.node).Nodup ∧
      (∀ x ∈ r.final.log (slotKey h i), x.draws.length = (p.graph.edges x.node).length) ∧
      (∀ v ∈ S, Relation.ReflTransGen
        (fun a b => LiveEdge p.graph (r.final.log (slotKey h i)) a b ∧ a ∈ S ∧ b ∈ S)
        (r.seeds.root h i) v) ∧
      (r.FrontierEmptied h i →
        (∀ v, v ∈ S ↔ Relation.ReflTransGen
          (LiveEdge p.graph (r.final.log (slotKey h i))) (r.seeds.root h i) v) ∧
        (∃ draw, Drew p.graph draw (r.final.log (slotKey h i))) ∧
        ∀ draw, Drew p.graph draw (r.final.log (slotKey h i)) →
          (∀ v, v ∈ S ↔ Relation.ReflTransGen (fun a b =>
            b ∈ liveSuccessors p.graph ⟨a, nodeDraws p.graph (fun _ => draw) 0 a⟩)
              (r.seeds.root h i) v) ∧
          S = (singleHostSearch p.graph draw (r.seeds.root h i)).set.partialReachableSet) := by
  obtain ⟨S, hS⟩ := r.exists_stored hi
  have hmem : S ∈ r.final.reachableSets h i := by
    rw [hS]
    exact List.mem_singleton_self S
  have hexp := r.stored_explored hmem
  have hsound := hexp.sound
  have honce : ((r.final.log (slotKey h i)).map Expansion.node).Nodup := by
    have hnodes := hsound.once
    rwa [PartialReachableSet.search, List.map_map] at hnodes
  refine ⟨S, hS, honce, hexp.draws, fun v hv => ?_, fun hdone =>
    ⟨fun v => ?_, exists_drew honce hexp.draws, fun draw hd => ?_⟩⟩
  · refine Relation.ReflTransGen.mono (fun a b hab => ?_) _ _ (hsound.joined v hv)
    exact ⟨search_edge_iff.mp hab.1, (hab.1.source hsound).1, hab.2⟩
  · have hiff := (r.stored_full hmem hdone).found_iff hsound (v := v)
    have hedges : (PartialReachableSet.search p.graph (r.final.log (slotKey h i))
        (Generating.storedSet h i S)).Edge = LiveEdge p.graph (r.final.log (slotKey h i)) := by
      funext a b
      exact propext search_edge_iff
    rw [hedges] at hiff
    exact hiff
  · have hroot : p.graph.IsNode (r.seeds.root h i) :=
      NetworkGraph.isNode_of_master (List.get_mem _ _)
    have hreached (v : GlobalNodeID) : v ∈ S ↔ Relation.ReflTransGen (fun a b =>
        b ∈ liveSuccessors p.graph ⟨a, nodeDraws p.graph (fun _ => draw) 0 a⟩)
          (r.seeds.root h i) v :=
      search_complete hsound (r.stored_full hmem hdone) rfl hd
    refine ⟨hreached, ?_⟩
    ext v
    rw [mem_singleHostSearch draw hroot]
    exact hreached v

/-- Three epochs are enough for the three nodes of the chain. -/
theorem reachableSet_search_chain :
    ∃ (r : GenerationRun chainGeneration 3 fun _ _ => NodeData.zero) (S : Finset GlobalNodeID),
      r.final.reachableSets 1 0 = [S] ∧ r.FrontierEmptied 1 0 ∧
        ∃ draw, Drew chainGraph draw (r.final.log (slotKey (1 : Fin 2) 0)) ∧
          (∀ v, v ∈ S ↔ Relation.ReflTransGen (fun a b =>
            b ∈ liveSuccessors chainGraph ⟨a, nodeDraws chainGraph (fun _ => draw) 0 a⟩)
              (r.seeds.root 1 0) v) ∧
          S = (singleHostSearch chainGraph draw (r.seeds.root 1 0)).set.partialReachableSet := by
  obtain ⟨r⟩ := exists_chainRun 3
  have hslot : (0 : UInt64) ∈ chainGeneration.slots 1 := by decide
  have hdone : r.FrontierEmptied 1 0 := r.frontierEmptied (by decide) hslot
  obtain ⟨S, hS, _, _, _, hfound⟩ := reachableSet_search r hslot
  obtain ⟨_, ⟨draw, hdraw⟩, hsearch⟩ := hfound hdone
  exact ⟨r, S, hS, hdone, draw, hdraw, hsearch draw hdraw⟩

end Wf4
