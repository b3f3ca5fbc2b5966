import GraphLogSketch.Wf4.ReachableSetsLedger

/-! What holds of the hosts at every moment of a run of `GetRandomReverseReachableSets`. -/
namespace Wf4
open GraphSearch
variable {H : ℕ} {p : Generation H} {store : Store H} {seeds : p.Seeds} {t t' : Generating H}

/-- The expansions made for a set, each with one draw for each edge, grew it from the root. -/
structure Explored (g : NetworkGraph H) (root : GlobalNodeID) (s : PartialReachableSet)
    (log : List Expansion) : Prop where
  sound : (s.search g log).Sound root
  draws : ∀ x ∈ log, x.draws.length = (g.edges x.node).length

/-- The number of sets that have settled a node. -/
def Generating.settledCount (t : Generating H) (v : GlobalNodeID) : ℕ :=
  t.sets.countP fun s => v ∈ s.settled

structure Generating.Inv (p : Generation H) (store : Store H) (seeds : p.Seeds)
    (t : Generating H) : Prop where
  keys : t.sets.map PartialReachableSet.key = p.keys
  wellFormed : ∀ s ∈ t.sets, s.WellFormed p.graph
  frequency : ∀ v, p.graph.IsNode v → (t.store (p.graph.getHostID v) v).frequency =
    (store (p.graph.getHostID v) v).frequency + UInt64.ofNat (t.settledCount v)
  explored : ∀ s ∈ t.sets, ∀ h i, s.key = slotKey h i →
    Explored p.graph (seeds.root h i) s (t.log s.key)
  root_here : ∀ h, ∀ s ∈ t.partialSets h, ∀ k i, s.key = slotKey k i →
    seeds.root k i ∈ s.frontier → seeds.root k i ∈ p.graph.masters h
  root_sent : ∀ h k, ∀ s ∈ t.remotePartialSets h k, ∀ j i, s.key = slotKey j i →
    seeds.root j i ∉ s.frontier
  sent : ∀ h k, ∀ s ∈ t.remotePartialSets h k, k ≠ hostId h

namespace Generating.Inv

theorem exists_slot (ht : t.Inv p store seeds) {s : PartialReachableSet} (hs : s ∈ t.sets) :
    ∃ h, ∃ i ∈ p.slots h, s.key = slotKey h i :=
  p.mem_keys.mp (ht.keys ▸ Multiset.mem_map_of_mem _ hs)

theorem valid (ht : t.Inv p store seeds) : t.Valid p.graph := by
  constructor
  · intro s hs
    obtain ⟨h, i, _, hkey⟩ := ht.exists_slot hs
    exact ⟨h, (Prod.mk.inj hkey).1⟩
  · exact ht.wellFormed

theorem keys_nodup (ht : t.Inv p store seeds) : (t.sets.map PartialReachableSet.key).Nodup :=
  ht.keys ▸ p.keys_nodup

end Generating.Inv

section Step
variable {h : Fin H} {finish : Bool} {s : PartialReachableSet} {c : Continued}
  {others : Multiset PartialReachableSet}

/-- What the call keeps of its set and log holds of all sets after the step. -/
theorem Replaces.forall_sets {Q : PartialReachableSet → List Expansion → Prop}
    (hr : Replaces p.graph h finish s c others t t') (hnd : (t.sets.map PartialReachableSet.key).Nodup)
    (hQ : ∀ x ∈ t.sets, Q x (t.log x.key)) (hc : Q s (t.log s.key) →
      Q c.set (t.log s.key ++ c.log)) : ∀ x ∈ t'.sets, Q x (t'.log x.key) := by
  intro x hx
  rw [hr.taken] at hQ hnd
  rw [hr.put, Multiset.mem_cons] at hx
  rw [Multiset.map_cons, Multiset.nodup_cons] at hnd
  rcases hx with rfl | hx
  · rw [hr.key, hr.log, Function.update_self]
    exact hc (hQ s (Multiset.mem_cons_self s others))
  · have hne : x.key ≠ s.key := fun he => hnd.1 (he ▸ Multiset.mem_map_of_mem _ hx)
    rw [hr.log, Function.update_of_ne hne]
    exact hQ x (Multiset.mem_cons_of_mem hx)

theorem Replaces.mem_taken (hr : Replaces p.graph h finish s c others t t') : s ∈ t.sets := by
  rw [hr.taken]
  exact Multiset.mem_cons_self s others

/-- The frequencies go up as the set of the call settles nodes. -/
theorem Replaces.frequency (hr : Replaces p.graph h finish s c others t t')
    (hspec : c.Spec p.graph h s) {v : GlobalNodeID} (hv : p.graph.IsNode v) :
    (t'.store (p.graph.getHostID v) v).frequency + UInt64.ofNat (t.settledCount v) =
      (t.store (p.graph.getHostID v) v).frequency + UInt64.ofNat (t'.settledCount v) := by
  have hcount : t'.settledCount v = t.settledCount v + c.counted.count v := by
    unfold Generating.settledCount
    rw [hr.taken, hr.put, Multiset.countP_cons, Multiset.countP_cons]
    have hsettled := hspec.settled v
    by_cases hmem : v ∈ c.counted
    · have hnot := (hspec.counted_mem v hmem).2
      have hone := List.count_eq_one_of_mem hspec.counted_nodup hmem
      simp [hsettled, hmem, hnot, hone]
    · rw [List.count_eq_zero_of_not_mem hmem]
      simp [hsettled, hmem]
  have hstore : (t'.store (p.graph.getHostID v) v).frequency =
      (t.store (p.graph.getHostID v) v).frequency + UInt64.ofNat (c.counted.count v) := by
    rw [hr.store]
    by_cases hown : p.graph.getHostID v = h
    · rw [hown, Function.update_self, HostData.raise_frequency]
    · have hmem : v ∉ c.counted := fun hm =>
        hown ((NetworkGraph.master_iff hv).mp (hspec.counted_mem v hm).1)
      rw [Function.update_of_ne hown, List.count_eq_zero_of_not_mem hmem]
      simp
  rw [hstore, hcount, UInt64.ofNat_add, add_assoc, add_comm (UInt64.ofNat (c.counted.count v))]

end Step

section Call
variable {g : NetworkGraph H} {h : Fin H} {s : PartialReachableSet} {frontier : List GlobalNodeID}
  {root : GlobalNodeID} {log : List Expansion} {finish : Bool}

/-- A root that was on the frontier of the set was local, so the call took it off. -/
theorem root_settled (hs : s.WellFormed g) (hf : Enumerates frontier s.frontier) (dist : Draws)
    (hroot : root ∈ s.partialReachableSet) (hlocal : root ∈ s.frontier → root ∈ g.masters h) :
    root ∉ (continueSet g h dist finish frontier s).set.frontier := by
  have hspec := continueSet_spec (h := h) hs hf dist finish
  intro hfr
  have hin := hspec.wellFormed.frontier_sub hfr
  by_cases hold : root ∈ s.frontier
  · exact hspec.remote root hfr (hlocal hold)
  · have hset : root ∈ s.settled := Finset.mem_sdiff.mpr ⟨hroot, hold⟩
    exact (Finset.mem_sdiff.mp ((hspec.settled root).mpr (Or.inl hset))).2 hfr

/-- Expanding local nodes, and dropping remote ones that were not expanded, keep the set grown from
its root. -/
theorem Explored.continueSet (he : Explored g root s log) (hs : s.WellFormed g)
    (hf : Enumerates frontier s.frontier) (dist : Draws)
    (hlocal : root ∈ s.frontier → root ∈ g.masters h) :
    Explored g root (continueSet g h dist finish frontier s).set
      (log ++ (continueSet g h dist finish frontier s).log) := by
  constructor
  · cases finish with
    | false =>
      exact continueSet_search (Q := fun t => t.Sound root)
        (fun _ _ out hv ht => ht.expand hv out) hs hf he.sound
    | true =>
      obtain ⟨hlog, hfr, hset⟩ := continueSet_finish (h := h) hf dist
      have hsearch : (Wf4.continueSet g h dist true frontier s).set.search g
          (log ++ (Wf4.continueSet g h dist true frontier s).log) =
          (s.search g log).truncate {v ∈ s.frontier | v ∉ g.masters h} := by
        rw [PartialReachableSet.search, hlog, hfr, hset, List.append_nil]
        rfl
      rw [hsearch]
      apply he.sound.truncate (Finset.filter_subset _ _)
      intro hdrop
      obtain ⟨hin, hout⟩ := Finset.mem_filter.mp hdrop
      exact hout (hlocal hin)
  · intro x hx
    rcases List.mem_append.mp hx with hx | hx
    · exact he.draws x hx
    · obtain ⟨n, hdraws⟩ := continueSet_draws g h dist finish frontier s x hx
      rw [hdraws, nodeDraws_length]

end Call

theorem GenerateStep.inv {finish : Bool} (hstep : GenerateStep p.graph finish t t')
    (ht : t.Inv p store seeds) : t'.Inv p store seeds := by
  obtain ⟨h, s, frontier, dist, others, hf, hwf, hr⟩ := hstep.replaces p.hosts_lt ht.valid
  have hspec := continueSet_spec (h := h) hwf hf dist finish
  have hlocal := ht.root_here h s hr.here
  have hexplored := ht.explored s hr.mem_taken
  constructor
  · rw [← ht.keys, hr.taken, hr.put, Multiset.map_cons, Multiset.map_cons, hr.key]
  · intro x hx
    rw [hr.put, Multiset.mem_cons] at hx
    rcases hx with rfl | hx
    · exact hspec.wellFormed
    · exact ht.wellFormed x (hr.taken ▸ Multiset.mem_cons_of_mem hx)
  · intro v hv
    have hstep := hr.frequency hspec hv
    rw [ht.frequency v hv] at hstep
    have hcancel : (t'.store (p.graph.getHostID v) v).frequency + UInt64.ofNat (t.settledCount v) =
        (store (p.graph.getHostID v) v).frequency + UInt64.ofNat (t'.settledCount v) +
          UInt64.ofNat (t.settledCount v) := by rw [hstep, add_right_comm]
    exact add_right_cancel hcancel
  · intro x hx k i hkey
    refine hr.forall_sets (Q := fun x log => x.key = slotKey k i →
      Explored p.graph (seeds.root k i) x log) ht.keys_nodup
      (fun x hx => ht.explored x hx k i) (fun hs hkey => ?_) x hx hkey
    rw [hr.key] at hkey
    exact (hs hkey).continueSet hwf hf dist (hlocal k i hkey)
  · intro k x hx
    exact ht.root_here k x (hr.partialSets k hx)
  · intro j k x hx l i hkey
    rcases hr.sent j k x hx with hx | ⟨_, _, rfl, _⟩
    · exact ht.root_sent j k x hx l i hkey
    · rw [hr.key] at hkey
      exact root_settled hwf hf dist (hexplored l i hkey).sound.root_mem (hlocal l i hkey)
  · intro j k x hx
    rcases hr.sent j k x hx with hx | ⟨rfl, hk, _, _⟩
    · exact ht.sent j k x hx
    · exact hk

theorem GenerateSets.inv {finish : Bool} (hgen : GenerateSets p.graph finish t t')
    (ht : t.Inv p store seeds) : t'.Inv p store seeds := by
  have hrun := hgen.1
  clear hgen
  induction hrun with
  | refl => exact ht
  | tail _ hstep ih => exact hstep.inv ih

/-- Some node id is no node, so a set is never as large as all of them. -/
theorem Generation.fits (p : Generation H) {s : PartialReachableSet} (hs : s.WellFormed p.graph) :
    s.Fits := by
  obtain ⟨v, hv⟩ := p.node_bound
  have hnot : v ∉ s.partialReachableSet := fun hm => hv (hs.nodes v hm)
  exact ⟨card_lt_of_notMem hnot, card_lt_of_notMem fun hm => hnot (hs.frontier_sub hm)⟩

theorem Generating.Inv.fits (ht : t.Inv p store seeds) {h k : Fin H}
    {sets : List PartialReachableSet}
    (hsets : (sets : Multiset PartialReachableSet) = t.remotePartialSets h (hostId k)) :
    ∀ s ∈ sets, s.Fits := by
  intro s hs
  have hmem : s ∈ t.remotePartialSets h (hostId k) := by
    rw [← hsets]
    exact hs
  exact p.fits (ht.wellFormed s (t.mem_sets.mpr (Or.inr (Or.inl ⟨h, k, hmem⟩))))

/-- Every host receives the sets the others have put aside for it. -/
theorem ExchangePartialSets.received (hex : ExchangePartialSets t t')
    (ht : t.Inv p store seeds) (k : Fin H) :
    t'.partialSets k = ∑ h ∈ Finset.univ.erase k, t.remotePartialSets h (hostId k) := by
  obtain ⟨hd⟩ := hex
  dsimp only
  apply Finset.sum_congr rfl
  intro h hh
  obtain ⟨sets, message, hsets, hsent, hread⟩ := hd k h (Finset.ne_of_mem_erase hh)
  rw [incomingSets_sent hsent (ht.fits hsets), Option.some.injEq] at hread
  rw [← hread, hsets]

theorem ExchangePartialSets.mem_received (hex : ExchangePartialSets t t')
    (ht : t.Inv p store seeds) {k : Fin H} {s : PartialReachableSet} (hs : s ∈ t'.partialSets k) :
    ∃ h, s ∈ t.remotePartialSets h (hostId k) := by
  rw [hex.received ht k, Multiset.mem_sum] at hs
  obtain ⟨h, _, hs⟩ := hs
  exact ⟨h, hs⟩

/-- Nothing is lost on the way. -/
theorem ExchangePartialSets.sets (hex : ExchangePartialSets t t') (ht : t.Inv p store seeds)
    (hempty : ∀ h, t.partialSets h = 0) : t'.sets = t.sets := by
  have hown (k : Fin H) : t.remotePartialSets k (hostId k) = 0 := by
    apply Multiset.eq_zero_of_forall_notMem
    intro s hs
    exact ht.sent k _ s hs rfl
  have hreceived : ∑ k, t'.partialSets k =
      ∑ h, ∑ k : Fin H, t.remotePartialSets h (hostId k) := by
    rw [Finset.sum_comm]
    apply Finset.sum_congr rfl
    intro k _
    rw [hex.received ht k]
    exact Finset.sum_erase Finset.univ (hown k)
  obtain ⟨hd⟩ := hex
  simp only [Generating.sets, hempty, hreceived, Finset.sum_const_zero, zero_add, add_zero]
  rfl

theorem ExchangePartialSets.inv (hex : ExchangePartialSets t t') (ht : t.Inv p store seeds)
    (hempty : ∀ h, t.partialSets h = 0) : t'.Inv p store seeds := by
  have hsets := hex.sets ht hempty
  have hreceived {k : Fin H} {s : PartialReachableSet} := hex.mem_received ht (k := k) (s := s)
  obtain ⟨hd⟩ := hex
  constructor
  · rw [hsets]
    exact ht.keys
  · rw [hsets]
    exact ht.wellFormed
  · intro v hv
    rw [Generating.settledCount, hsets]
    exact ht.frequency v hv
  · rw [hsets]
    exact ht.explored
  · intro k s hs j i hkey hfr
    obtain ⟨h, hs⟩ := hreceived hs
    exact absurd hfr (ht.root_sent h _ s hs j i hkey)
  · intro h k s hs
    simp at hs
  · intro h k s hs
    simp at hs

theorem generateSeedNode_key (g : NetworkGraph H) (h : Fin H) (i : UInt64)
    (draw : Fin (g.masters h).length) : (generateSeedNode g h i draw).key = slotKey h i := rfl

theorem startGenerating_sets (p : Generation H) (store : Store H) (seeds : p.Seeds) :
    (startGenerating p store seeds).sets =
      ∑ h, (((p.slots h).map fun i => generateSeedNode p.graph h i (seeds h i) :
        List PartialReachableSet) : Multiset PartialReachableSet) := by
  simp [Generating.sets, Generating.stored, startGenerating]

theorem mem_startGenerating {s : PartialReachableSet}
    (hs : s ∈ (startGenerating p store seeds).sets) :
    ∃ h, ∃ i ∈ p.slots h, s = generateSeedNode p.graph h i (seeds h i) := by
  rw [startGenerating_sets, Multiset.mem_sum] at hs
  obtain ⟨h, _, hs⟩ := hs
  obtain ⟨i, hi, rfl⟩ := List.mem_map.mp hs
  exact ⟨h, i, hi, rfl⟩

theorem startGenerating_inv (p : Generation H) (store : Store H) (seeds : p.Seeds) :
    (startGenerating p store seeds).Inv p store seeds := by
  have hroot (h : Fin H) (i : UInt64) : seeds.root h i ∈ p.graph.masters h := List.get_mem _ _
  constructor
  · rw [startGenerating_sets, Generation.keys]
    refine (map_sum (Multiset.mapAddMonoidHom PartialReachableSet.key) _ _).trans ?_
    apply Finset.sum_congr rfl
    intro h _
    rw [Multiset.coe_mapAddMonoidHom, Multiset.map_coe, List.map_map]
    rfl
  · intro s hs
    obtain ⟨h, i, _, rfl⟩ := mem_startGenerating hs
    constructor
    · exact Finset.Subset.refl _
    · intro v hv
      obtain rfl := Finset.mem_singleton.mp hv
      exact NetworkGraph.isNode_of_master (hroot h i)
  · intro v _
    have hzero : (startGenerating p store seeds).settledCount v = 0 := by
      apply Multiset.countP_eq_zero.mpr
      intro s hs
      obtain ⟨h, i, _, rfl⟩ := mem_startGenerating hs
      simp [PartialReachableSet.settled, generateSeedNode]
    rw [hzero]
    simp [startGenerating]
  · intro s hs k j hkey
    obtain ⟨h, i, _, rfl⟩ := mem_startGenerating hs
    rw [generateSeedNode_key] at hkey
    obtain ⟨rfl, rfl⟩ := slotKey_injective p.hosts_lt hkey
    exact ⟨start_sound _, fun x hx => by simp [startGenerating] at hx⟩
  · intro h s hs k j hkey _
    obtain ⟨i, _, rfl⟩ := List.mem_map.mp hs
    rw [generateSeedNode_key] at hkey
    obtain ⟨rfl, rfl⟩ := slotKey_injective p.hosts_lt hkey
    exact hroot h i
  · intro h k s hs
    simp [startGenerating] at hs
  · intro h k s hs
    simp [startGenerating] at hs

theorem Epochs.inv {n : ℕ} (hep : Epochs p.graph n t t') (ht : t.Inv p store seeds) :
    t'.Inv p store seeds := by
  induction hep with
  | zero => exact ht
  | succ _ hgen hex ih => exact hex.inv (hgen.inv (ih ht)) hgen.2

end Wf4
