import GraphLogSketch.Wf4.InfluenceResult
import GraphLogSketch.Wf4.ProbabilityTotals

/-! What `GetInfluentialNodes` prints: for every pick how often it occurred and the total influence in
the graph, and in the end how many sets were not influenced. -/
namespace Wf4
open GreedyCover
variable {H : ℕ} {n : Fin H → ℕ} {g : NetworkGraph H} {s start : ∀ h, InfluenceHost H (n h)}

/-- The maximum over all hosts, as a host finds it. -/
def globalMax (c : PickChoice g) (store : Store H) (h : Fin H) : LocalMaxNode :=
  getMaxNode (c.globalJunk h) (exchangeMostInfluentialNodes (hostMax c store) h)

/-- What `FindLocalMaxNode` adds up. -/
def totalInfluence (g : NetworkGraph H) (store : Store H) : UInt64 :=
  ∑ h, ((g.masters h).map fun v => (store h v).frequency).sum

/-- A call of `GetMostInfluentialNode` on all hosts: the node that is returned, and the two numbers in the
line that is printed by the host that owns the node. -/
structure PickLine (H : ℕ) where
  node : Fin H → GlobalNodeID
  occurred : Fin H → UInt64
  totalInfluence : UInt64

def pickLine (c : PickChoice g) (store : Store H) : PickLine H :=
  ⟨getMostInfluentialNode c store, fun h => (globalMax c store h).maxInfluence,
    totalInfluence g store⟩

/-- `GetInfluentialNodes` on all hosts with the lines it prints, latest first. -/
inductive ReportedSelection (g : NetworkGraph H) (start : ∀ h, InfluenceHost H (n h)) :
    List (PickLine H) → (∀ h, InfluenceHost H (n h)) → Prop
  | first (c : PickChoice g) :
      ReportedSelection g start [pickLine c (influenceStore start)] start
  | next {l : PickLine H} {ls : List (PickLine H)} {s : ∀ h, InfluenceHost H (n h)}
      (hs : ReportedSelection g start (l :: ls) s) (r : Removal g l.node s) (c : PickChoice g) :
      ReportedSelection g start (pickLine c (influenceStore r.after) :: l :: ls) r.after

/-- The sets of a host that are counted in its closing line. -/
def uninfluencedSets {m : ℕ} (s : InfluenceHost H m) : ℕ :=
  ((List.finRange m).filter fun i => 0 < (s.sets i).card).length

theorem ReportedSelection.selection {ls : List (PickLine H)} (hrep : ReportedSelection g start ls s) :
    Selection g start (ls.map PickLine.node) s := by
  induction hrep with
  | first c => exact .first c
  | next _ r c ih => exact .next ih r c

/-- The closing lines of all hosts count the sets that are left. -/
theorem sum_uninfluencedSets (s : ∀ h, InfluenceHost H (n h)) :
    ∑ h, uninfluencedSets (s h) = left (family s) := by
  have hhost (h : Fin H) : uninfluencedSets (s h) = ∑ j, if (family s ⟨h, j⟩).Nonempty then 1 else 0 := by
    rw [uninfluencedSets, ← Finset.card_filter,
      ← List.toFinset_card_of_nodup ((List.nodup_finRange _).filter _)]
    congr 1
    ext j
    simp only [List.mem_toFinset, List.mem_filter, List.mem_finRange, Finset.mem_filter,
      Finset.mem_univ, true_and, decide_eq_true_eq, Finset.card_pos]
    rfl
  simp only [hhost, left, Finset.card_filter]
  exact (Fintype.sum_sigma fun x => if (family s x).Nonempty then 1 else 0).symm

/-- The maximum is the counter of the node that is picked, and zero if all counters are. -/
theorem globalMax_influence (c : PickChoice g) (store : Store H) (h : Fin H) :
    ((∀ v, g.IsNode v → masterFrequency g store v = 0) ∧ (globalMax c store h).influence = 0) ∨
      (g.IsNode (getMostInfluentialNode c store h) ∧ (globalMax c store h).influence =
        masterFrequency g store (getMostInfluentialNode c store h)) := by
  rcases getMaxNode_cases (c.globalJunk h) (List.ofFn (hostMax c store)) with ⟨hzero, heq⟩ | ⟨hpos, hfirst⟩
  · left
    constructor
    · intro v hv
      have hle := masterFrequency_le_hostMax c store hv
      have hnone := hzero _ (List.mem_ofFn.mpr ⟨g.getHostID v, rfl⟩)
      omega
    · exact congrArg LocalMaxNode.influence heq
  · right
    obtain ⟨k, hk⟩ := List.mem_ofFn.mp hfirst.mem
    rcases hostMax_cases c store k with ⟨_, h0⟩ | ⟨m, hm, hcand, _⟩
    · rw [hk] at h0
      omega
    · have hmax : globalMax c store h = candidate (store k) m := hk.symm.trans hcand
      have hpick : getMostInfluentialNode c store h = m := congrArg LocalMaxNode.maxNode hmax
      rw [hpick, hmax]
      exact ⟨NetworkGraph.isNode_of_master hm, (masterFrequency_eq hm).symm⟩

/-- A pick occurred in as many of the sets that are left as its line says. -/
theorem Consistent.occurred (hs : Consistent g s) (c : PickChoice g) (h : Fin H) :
    ((pickLine c (influenceStore s)).occurred h).toNat =
      gain (family s) (getMostInfluentialNode c (influenceStore s) h) := by
  show (globalMax c (influenceStore s) h).influence = _
  rcases globalMax_influence c (influenceStore s) h with ⟨hzero, h0⟩ | ⟨hnode, heq⟩
  · rw [h0]
    by_cases hv : g.IsNode (getMostInfluentialNode c (influenceStore s) h)
    · rw [← hs.frequency _ hv, hzero _ hv]
    · exact (gain_eq_zero fun x hx => hv (hs.nodes x _ hx)).symm
  · rw [heq, hs.frequency _ hnode]

/-- The total influence is the number of members of all sets, in 64 bits. -/
theorem Consistent.totalInfluence_eq (hs : Consistent g s) :
    totalInfluence g (influenceStore s) = UInt64.ofNat (∑ x, (family s x).card) := by
  let toWord : ℕ →+ UInt64 := ⟨⟨UInt64.ofNat, rfl⟩, UInt64.ofNat_add⟩
  have hfreq (h : Fin H) (v : GlobalNodeID) (hv : v ∈ g.masters h) :
      (influenceStore s h v).frequency = toWord (gain (family s) v) := by
    have hcount := hs.frequency v (NetworkGraph.isNode_of_master hv)
    rw [masterFrequency_eq hv] at hcount
    show _ = UInt64.ofNat _
    rw [← hcount, UInt64.ofNat_toNat]
  have hhost (h : Fin H) : ((g.masters h).map fun v => (influenceStore s h v).frequency).sum =
      ((g.masters h).map fun v => toWord (gain (family s) v)).sum :=
    congrArg List.sum (List.map_congr_left fun v hv => hfreq h v hv)
  have hmembers := sum_gain (F := family s) (S := g.nodes) fun x v hv =>
    mem_nodes.mpr (hs.nodes x v hv)
  rw [totalInfluence, Finset.sum_congr rfl fun h _ => hhost h,
    sum_hosts (fun _ => .rfl) fun v => toWord (gain (family s) v), ← map_sum, hmembers]
  rfl

theorem exists_reportedSelection {n : Fin H → ℕ} (g : NetworkGraph H)
    (start : ∀ h, InfluenceHost H (n h)) (k : ℕ) :
    ∃ l ls s, ReportedSelection g start (l :: ls) s ∧ ls.length = k := by
  induction k with
  | zero => exact ⟨_, [], start, .first (.inFront g 0 fun _ => 0), rfl⟩
  | succ k ih =>
    obtain ⟨l, ls, s, hrep, hlen⟩ := ih
    obtain ⟨r⟩ := removal_nonempty g l.node s
    exact ⟨_, l :: ls, _, hrep.next r (.inFront g 0 fun _ => 0), congrArg (· + 1) hlen⟩

section Lines
variable {l : PickLine H} {ls : List (PickLine H)}

/-- The latest line was printed for the hosts as they are. -/
theorem ReportedSelection.latest (hrep : ReportedSelection g start (l :: ls) s) :
    ∃ c : PickChoice g, l = pickLine c (influenceStore s) := by
  cases hrep with
  | first c => exact ⟨c, rfl⟩
  | next _ _ c => exact ⟨c, rfl⟩

theorem ReportedSelection.consistent (hstart : Consistent g start) (hbound : ∃ v, ¬ g.IsNode v)
    (hrep : ReportedSelection g start ls s) : Consistent g s :=
  hrep.selection.consistent hstart hbound

/-- The latest line tells in how many of the sets that are left its node is, and no node is in
more. -/
theorem ReportedSelection.occurred_eq (hstart : Consistent g start) (hbound : ∃ v, ¬ g.IsNode v)
    (hrep : ReportedSelection g start (l :: ls) s) (h : Fin H) :
    (l.occurred h).toNat = gain (family s) (l.node h) ∧ Most (gain (family s)) (l.node h) := by
  have hs := hrep.consistent hstart hbound
  obtain ⟨c, rfl⟩ := hrep.latest
  exact ⟨hs.occurred c h, hs.most_pick c h⟩

/-- The lines before the latest one account for the sets that are gone. -/
theorem ReportedSelection.accounted (hstart : Consistent g start) (hbound : ∃ v, ¬ g.IsNode v)
    (hrep : ReportedSelection g start ls s) (h : Fin H) :
    left (family s) + (ls.tail.map fun x => (x.occurred h).toNat).sum = left (family start) := by
  induction hrep with
  | first c => simp
  | @next l ls s hs r c ih =>
    have hclear := left_clear (family s) (l.node h)
    have hoccurred := (hs.occurred_eq hstart hbound h).1
    rw [hs.selection.family_after (hs.consistent hstart hbound) r h]
    simp only [List.tail_cons, List.map_cons, List.sum_cons] at ih ⊢
    omega

/-- No line says more than an earlier one. -/
theorem ReportedSelection.sorted (hstart : Consistent g start) (hbound : ∃ v, ¬ g.IsNode v)
    (hrep : ReportedSelection g start ls s) (h : Fin H) :
    (ls.map fun x => x.occurred h).Pairwise (· ≤ ·) := by
  induction hrep with
  | first c => exact List.pairwise_singleton _ _
  | @next l ls s hs r c ih =>
    have hcons := hs.consistent hstart hbound
    obtain ⟨hoccurred, hmost⟩ := hs.occurred_eq hstart hbound h
    have hafter := (r.consistent hcons hbound).occurred c h
    have hle : (pickLine c (influenceStore r.after)).occurred h ≤ l.occurred h := by
      rw [UInt64.le_iff_toNat_le, hafter, hoccurred, hs.selection.family_after hcons r h]
      exact (gain_clear_le _ _ _).trans (hmost _)
    rw [List.map_cons, List.pairwise_cons]
    refine ⟨fun x hx => ?_, ih⟩
    rcases List.mem_cons.mp hx with rfl | hx
    · exact hle
    · exact UInt64.le_trans hle ((List.pairwise_cons.mp ih).1 x hx)

/-- All hosts find the same maximum. -/
theorem ReportedSelection.agreed (hstart : Consistent g start) (hbound : ∃ v, ¬ g.IsNode v)
    (hrep : ReportedSelection g start ls s) {x : PickLine H} (hx : x ∈ ls) (h k : Fin H) :
    x.occurred h = x.occurred k := by
  have hpick {s : ∀ h, InfluenceHost H (n h)} (hs : Consistent g s) (c : PickChoice g) :
      (pickLine c (influenceStore s)).occurred h = (pickLine c (influenceStore s)).occurred k := by
    rw [← UInt64.toNat_inj, hs.occurred c h, hs.occurred c k]
    exact le_antisymm (hs.most_pick c k _) (hs.most_pick c h _)
  induction hrep with
  | first c =>
    obtain rfl := List.mem_singleton.mp hx
    exact hpick hstart c
  | next hs r c ih =>
    rcases List.mem_cons.mp hx with rfl | hx
    · exact hpick (r.consistent (hs.consistent hstart hbound) hbound) c
    · exact ih hx

/-- The lines that are printed, latest first: the hosts agree on how often a pick occurred, no pick
occurred more often than an earlier one, the latest line tells its occurrences in the sets that are
left and the members of all of them, and the sets that are left and the occurrences of the picks
before the latest add up to the sets there were. -/
theorem getInfluentialNodes_report (hstart : Consistent g start) (hbound : ∃ v, ¬ g.IsNode v)
    (hrep : ReportedSelection g start (l :: ls) s) (h : Fin H) :
    (∀ x ∈ l :: ls, ∀ k, x.occurred k = x.occurred h) ∧
      ((l :: ls).map fun x => x.occurred h).Pairwise (· ≤ ·) ∧
      (l.occurred h).toNat = gain (family s) (l.node h) ∧
      l.totalInfluence = UInt64.ofNat (∑ x, (family s x).card) ∧
      ∑ k, uninfluencedSets (s k) + (ls.map fun x => (x.occurred h).toNat).sum =
        ∑ k, uninfluencedSets (start k) := by
  refine ⟨fun x hx k => hrep.agreed hstart hbound hx k h, hrep.sorted hstart hbound h,
    (hrep.occurred_eq hstart hbound h).1, ?_, ?_⟩
  · obtain ⟨c, hl⟩ := hrep.latest
    rw [hl]
    exact (hrep.consistent hstart hbound).totalInfluence_eq
  · rw [sum_uninfluencedSets, sum_uninfluencedSets]
    exact hrep.accounted hstart hbound h

/-- The sets of the pair that the second of two picks leaves, and those that the first took. -/
theorem getInfluentialNodes_report_chain : ∃ l l' s, ReportedSelection chainGraph pairStart [l, l'] s ∧
    (l.occurred 0).toNat = gain (family s) (l.node 0) ∧
    ∑ k, uninfluencedSets (s k) + (l'.occurred 0).toNat = ∑ k, uninfluencedSets (pairStart k) := by
  obtain ⟨l, ls, s, hrep, hlen⟩ := exists_reportedSelection chainGraph pairStart 1
  obtain ⟨l', rfl⟩ := List.length_eq_one_iff.mp hlen
  obtain ⟨-, -, hoccurred, -, hall⟩ := getInfluentialNodes_report pair_consistent chain_bound hrep 0
  exact ⟨l, l', s, hrep, hoccurred, by simpa using hall⟩

end Lines
end Wf4
