import GraphLogSketch.Wf4.InfluenceProgress

/-! `GetInfluentialNodes` as a greedy choice: while a set is left, every host picks the same node, one
that is in most of the sets that are left. -/
namespace Wf4
open GreedyCover
variable {H : ℕ} {n : Fin H → ℕ} {g : NetworkGraph H} {s start : ∀ h, InfluenceHost H (n h)}
  {p : Fin H → GlobalNodeID} {ps : List (Fin H → GlobalNodeID)}

theorem mostInfluential_congr {f f' : GlobalNodeID → ℕ} (h : ∀ v, g.IsNode v → f v = f' v)
    {m : GlobalNodeID} (hm : MostInfluential g f m) : MostInfluential g f' m := by
  constructor
  · exact hm.node
  · rw [← h m hm.node]
    exact hm.positive
  · intro v hv
    rw [← h v hv, ← h m hm.node]
    exact hm.most v hv
  · intro v hv heq
    rw [← h v hv, ← h m hm.node] at heq
    exact hm.first v hv heq

/-- What a pick from consistent hosts is: the node that is best for the sets, or, when no set is
left, whatever the hosts had in memory. -/
theorem Consistent.pick (hs : Consistent g s) (c : PickChoice g) :
    (∃ m, MostInfluential g (gain (family s)) m ∧
      ∀ h, getMostInfluentialNode c (influenceStore s) h = m) ∨
    ((∀ x, family s x = ∅) ∧
      ∀ h, getMostInfluentialNode c (influenceStore s) h = c.globalJunk h) := by
  by_cases hempty : ∀ x, family s x = ∅
  · right
    refine ⟨hempty, getMostInfluentialNode_zero c fun v hv => ?_⟩
    rw [hs.frequency v hv]
    exact gain_eq_zero fun x => by rw [hempty x]; exact Finset.notMem_empty v
  · left
    obtain ⟨x, hx⟩ := not_forall.mp hempty
    obtain ⟨v, hv⟩ := Finset.nonempty_iff_ne_empty.mpr hx
    have hnode := hs.nodes x v hv
    have hpos : 0 < masterFrequency g (influenceStore s) v := by
      rw [hs.frequency v hnode]
      exact gain_pos hv
    obtain ⟨m, hm, hpick⟩ := getMostInfluentialNode_spec c hnode hpos
    exact ⟨m, mostInfluential_congr hs.frequency hm, hpick⟩

/-- A most influential node is best among all ids. -/
theorem Consistent.most (hs : Consistent g s) {m : GlobalNodeID}
    (hm : MostInfluential g (gain (family s)) m) : Most (gain (family s)) m := by
  intro v
  by_cases hv : g.IsNode v
  · exact hm.most v hv
  · rw [gain_eq_zero fun x hx => hv (hs.nodes x v hx)]
    exact Nat.zero_le _

theorem Removal.family_after (hs : Consistent g s) (r : Removal g p s)
    (x : (h : Fin H) × Fin (n h)) :
    family r.after x = if p x.1 ∈ family s x then ∅ else family s x :=
  r.after_sets hs x.1 x.2

theorem Removal.family_after_const (hs : Consistent g s) (r : Removal g p s) {m : GlobalNodeID}
    (hp : ∀ h, p h = m) : family r.after = clear (family s) m := by
  funext x
  rw [r.family_after hs, hp x.1, clear]

theorem Selection.consistent (hstart : Consistent g start) (hbound : ∃ v, ¬ g.IsNode v)
    {picks : List (Fin H → GlobalNodeID)} (hsel : Selection g start picks s) : Consistent g s := by
  induction hsel with
  | first => exact hstart
  | next _ r _ ih => exact r.consistent ih hbound

/-- The latest picks were made from the hosts as they are. -/
theorem Selection.latest (hsel : Selection g start (p :: ps) s) :
    ∃ c : PickChoice g, p = getMostInfluentialNode c (influenceStore s) := by
  cases hsel with
  | first c => exact ⟨c, rfl⟩
  | next _ _ c => exact ⟨c, rfl⟩

/-- A round clears what the pick of any host hits: the picks differ only when nothing is left. -/
theorem Selection.family_after (hsel : Selection g start (p :: ps) s) (hs : Consistent g s)
    (r : Removal g p s) (h : Fin H) : family r.after = clear (family s) (p h) := by
  obtain ⟨c, rfl⟩ := hsel.latest
  rcases hs.pick c with ⟨m, _, hpick⟩ | ⟨hempty, _⟩
  · rw [r.family_after_const hs hpick, hpick h]
  · funext x
    rw [r.family_after hs, clear, hempty x]
    simp

theorem Consistent.most_pick (hs : Consistent g s) (c : PickChoice g) (h : Fin H) :
    Most (gain (family s)) (getMostInfluentialNode c (influenceStore s) h) := by
  rcases hs.pick c with ⟨m, hm, hpick⟩ | ⟨hempty, _⟩
  · rw [hpick h]
    exact hs.most hm
  · intro v
    rw [gain_eq_zero fun x => by rw [hempty x]; exact Finset.notMem_empty v]
    exact Nat.zero_le _

/-- Seen from any host the picks are greedy, and the sets are what they leave. -/
theorem Selection.greedy (hstart : Consistent g start) (hbound : ∃ v, ¬ g.IsNode v)
    {picks : List (Fin H → GlobalNodeID)} (hsel : Selection g start picks s) (h : Fin H) :
    Greedy Most (family start) (picks.map fun q => q h) ∧
      family s = remaining (family start) (picks.tail.map fun q => q h) := by
  induction hsel with
  | first c =>
    refine ⟨.cons .nil ?_, remaining_nil.symm⟩
    rw [List.map_nil, remaining_nil]
    exact hstart.most_pick c h
  | @next p ps s hsel r c ih =>
    have hs := hsel.consistent hstart hbound
    have hafter : family r.after = remaining (family start) ((p :: ps).map fun q => q h) := by
      rw [hsel.family_after hs r h, List.map_cons, remaining_cons, ih.2]
      rfl
    refine ⟨.cons ih.1 ?_, hafter⟩
    rw [← hafter]
    exact (r.consistent hs hbound).most_pick c h

/-- While the next set of a host is removed, no counter is lowered below zero. -/
theorem Consistent.no_underflow (hs : Consistent g s) {h : Fin H} {m : GlobalNodeID}
    {order : Fin (n h) → List GlobalNodeID} {t : Removing H (n h)}
    (horder : ∀ i, Enumerates (order i) ((s h).sets i))
    (hrun : Threads.Run (List.finRange (n h)) (removeReachableSet g h m order)
      (startRemoving (s h)) t) {i : Fin (n h)} {v : GlobalNodeID} {rest : List GlobalNodeID}
    (hi : t.removers i = .running (v :: rest)) (hv : v ∈ g.masters h) :
    0 < (t.host.data v).frequency.toNat :=
  (removing_ok (hs.ready h) horder hrun).frequency_pos (hs.ready h) hi hv

/-- At every boundary of the loop the counters count the sets that are left; the latest pick is in
most of them and the same on every host while one is left; and in the round that follows no counter
is lowered below zero, neither by the host nor by an update it receives. -/
theorem getInfluentialNodes_greedy (hstart : Consistent g start) (hbound : ∃ v, ¬ g.IsNode v)
    (hsel : Selection g start (p :: ps) s) :
    (∀ v, g.IsNode v → masterFrequency g (influenceStore s) v = gain (family s) v) ∧
      (∀ h, family s = remaining (family start) (ps.map fun q => q h)) ∧
      ((∃ x, (family s x).Nonempty) →
        ∃ m, g.IsNode m ∧ (∀ h, p h = m) ∧ ∀ v, gain (family s) v ≤ gain (family s) m) ∧
      (∀ h order t, (∀ i, Enumerates (order i) ((s h).sets i)) →
        Threads.Run (List.finRange (n h)) (removeReachableSet g h (p h) order)
          (startRemoving (s h)) t →
        ∀ i v rest, t.removers i = .running (v :: rest) → v ∈ g.masters h →
          0 < (t.host.data v).frequency.toNat) ∧
      ∀ (r : Removal g p s) (h : Fin H) l u l', r.updates h = l ++ u :: l' →
        u.2.toNat ≤ (l.foldl HostData.lower (r.removed h).host.data u.1).frequency.toNat := by
  have hs := hsel.consistent hstart hbound
  refine ⟨hs.frequency, fun h => (hsel.greedy hstart hbound h).2, ?_, ?_, ?_⟩
  · rintro ⟨x, hx⟩
    obtain ⟨c, rfl⟩ := hsel.latest
    rcases hs.pick c with ⟨m, hm, hpick⟩ | ⟨hempty, _⟩
    · exact ⟨m, hm.node, hpick, hs.most hm⟩
    · exact absurd (hempty x) (Finset.nonempty_iff_ne_empty.mp hx)
  · intro h order t horder hrun i v rest hi hv
    exact hs.no_underflow horder hrun hi hv
  · intro r h l u l' hsplit
    have hle := r.updates_le hs hbound h
    rw [hsplit] at hle
    exact HostData.foldl_lower_prefix hle

/-- Both hosts of the chain hold one set, of the middle node, which the counters count. -/
def chainSets : Fin 2 → Fin 1 → Finset GlobalNodeID := fun _ _ => {2}

def chainCounts : Store 2 := fun _ v =>
  if v = 2 then { NodeData.zero with frequency := 2 } else NodeData.zero

def chainStart : Fin 2 → InfluenceHost 2 1 := startSelection chainCounts chainSets

theorem chain_consistent : Consistent chainGraph chainStart where
  nodes := by
    rintro ⟨h, i⟩ v hv
    have h2 : v = 2 := Finset.mem_singleton.mp hv
    rw [h2]
    decide
  frequency v hv := by
    rcases chainGraph_node hv with rfl | rfl | rfl
    · decide
    · decide
    · decide
  unsent _ _ := rfl

theorem chain_bound : ∃ v, ¬ chainGraph.IsNode v := ⟨4, by decide⟩

/-- Here no node is in the sets of both hosts. -/
def pairSets : Fin 2 → Fin 1 → Finset GlobalNodeID := fun h _ => if h.val = 0 then {1, 2} else {3}

def pairCounts : Store 2 := fun _ v =>
  if v = 1 ∨ v = 2 ∨ v = 3 then { NodeData.zero with frequency := 1 } else NodeData.zero

def pairStart : Fin 2 → InfluenceHost 2 1 := startSelection pairCounts pairSets

theorem pair_consistent : Consistent chainGraph pairStart where
  nodes := by
    rintro ⟨h, i⟩ v hv
    have hv : v ∈ pairSets h i := hv
    fin_cases h
    · have h12 : v = 1 ∨ v = 2 := by simpa [pairSets] using hv
      rcases h12 with rfl | rfl <;> decide
    · have h3 : v = 3 := by simpa [pairSets] using hv
      rw [h3]
      decide
  frequency v hv := by
    rcases chainGraph_node hv with rfl | rfl | rfl
    · decide
    · decide
    · decide
  unsent _ _ := rfl

/-- One pick does not hit the sets of both hosts. -/
theorem pair_left (m : GlobalNodeID) : ∃ x, (remaining (family pairStart) [m] x).Nonempty := by
  by_cases hm : m = 3
  · refine ⟨⟨0, 0⟩, 1, mem_remaining.mpr ⟨by decide, fun w hw => ?_⟩⟩
    rw [List.mem_singleton.mp hw, hm]
    decide
  · refine ⟨⟨1, 0⟩, 3, mem_remaining.mpr ⟨by decide, fun w hw hmem => hm ?_⟩⟩
    rw [List.mem_singleton.mp hw] at hmem
    exact Finset.mem_singleton.mp hmem

theorem exists_pairSelection : ∃ p q s, Selection chainGraph pairStart [p, q] s := by
  obtain ⟨more, s, hsel, hlen⟩ := (show Selection chainGraph pairStart _ pairStart from
    .first (.inFront chainGraph 3 fun _ => 0)).extend 1
  obtain ⟨p, rfl⟩ := List.length_eq_one_iff.mp hlen
  exact ⟨p, _, s, hsel⟩

/-- The second pick is made after a round of removals. -/
theorem getInfluentialNodes_greedy_chain : ∃ p q s, Selection chainGraph pairStart [p, q] s ∧
    ∃ m, chainGraph.IsNode m ∧ (∀ h, p h = m) ∧ ∀ v, gain (family s) v ≤ gain (family s) m := by
  obtain ⟨p, q, s, hsel⟩ := exists_pairSelection
  obtain ⟨-, hleft, hbest, -⟩ := getInfluentialNodes_greedy pair_consistent chain_bound hsel
  refine ⟨p, q, s, hsel, hbest ?_⟩
  rw [hleft 0]
  exact pair_left (q 0)

end Wf4
