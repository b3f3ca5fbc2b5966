import GraphLogSketch.Wf4.InfluenceGreedy

/-! What `GetInfluentialNodes` guarantees: its choice reaches the share of a greedy choice, and it returns
distinct nodes exactly while sets are left to choose for. -/
namespace Wf4
open GreedyCover
variable {H : ℕ} {n : Fin H → ℕ} {g : NetworkGraph H} {s start : ∀ h, InfluenceHost H (n h)}
  {p : Fin H → GlobalNodeID} {ps picks : List (Fin H → GlobalNodeID)}

/-- The nodes a host returns hit at least the `1 - (1 - 1/k)^k` share of the sets that any `k` nodes
hit. -/
theorem getInfluentialNodes_share (hstart : Consistent g start) (hbound : ∃ v, ¬ g.IsNode v)
    (hsel : Selection g start picks s) {k : ℕ} (hk : picks.length = k) (h : Fin H)
    {ts : List GlobalNodeID} (hts : ts.length ≤ k) :
    (k ^ k - (k - 1) ^ k) * (hit (family start) ts).card ≤
      k ^ k * (hit (family start) (influentialNodes picks h)).card := by
  have hgreedy := (hsel.greedy hstart hbound h).1
  have hlen : (picks.map fun q => q h).length = k := by rw [List.length_map, hk]
  have hpos : 1 ≤ k := by
    rw [← hk]
    cases hsel with
    | first => exact Nat.le_refl 1
    | next => exact Nat.succ_le_succ (Nat.zero_le _)
  have hsame : hit (family start) (influentialNodes picks h) =
      hit (family start) (picks.map fun q => q h) := by
    ext x
    rw [mem_hit, mem_hit, influentialNodes]
    simp
  have hts' : ts.length ≤ (picks.map fun q => q h).length := hlen.symm ▸ hts
  have hshare := hgreedy.bound hts' (hlen.symm ▸ hpos)
  rw [hlen] at hshare
  rw [hsame]
  exact hshare

/-- Two picks for the two sets of the pair. -/
theorem getInfluentialNodes_share_chain : ∃ p q s, Selection chainGraph pairStart [p, q] s ∧
    (2 ^ 2 - (2 - 1) ^ 2) * (hit (family pairStart) [1, 3]).card ≤
      2 ^ 2 * (hit (family pairStart) (influentialNodes [p, q] 0)).card := by
  obtain ⟨p, q, s, hsel⟩ := exists_pairSelection
  exact ⟨p, q, s, hsel, getInfluentialNodes_share pair_consistent chain_bound hsel rfl 0
    (Nat.le_refl 2)⟩

/-- All hosts return the same vector, of distinct nodes. -/
def ReturnsDistinctNodes (g : NetworkGraph H) (picks : List (Fin H → GlobalNodeID)) : Prop :=
  ∃ l : List GlobalNodeID, (∀ h, influentialNodes picks h = l) ∧ l.Nodup ∧ ∀ v ∈ l, g.IsNode v

section Greedy
variable {F : (h : Fin H) × Fin (n h) → Finset GlobalNodeID} {ms : List GlobalNodeID}

/-- Most influential nodes of what is left are new each time. -/
theorem greedy_nodup (hms : Greedy (MostInfluential g) F ms) :
    ms.Nodup ∧ ∀ v ∈ ms, g.IsNode v := by
  induction hms with
  | nil => exact ⟨List.nodup_nil, fun v hv => by simp at hv⟩
  | @cons m ms _ hm ih =>
    refine ⟨List.nodup_cons.mpr ⟨fun hmem => ?_, ih.1⟩, fun v hv => ?_⟩
    · have hzero : gain (remaining F ms) m = 0 :=
        gain_eq_zero fun x hx => (mem_remaining.mp hx).2 m hmem (mem_remaining.mp hx).1
      have hpos := hm.positive
      omega
    · rcases List.mem_cons.mp hv with rfl | hv
      · exact hm.node
      · exact ih.2 v hv

/-- The state from which the pick after `ms` is made. -/
theorem exists_selection (hstart : Consistent g start) (hbound : ∃ v, ¬ g.IsNode v)
    (hms : Greedy (MostInfluential g) (family start) ms) :
    ∃ s, Consistent g s ∧ family s = remaining (family start) ms ∧ ∀ c : PickChoice g,
      Selection g start (getMostInfluentialNode c (influenceStore s) :: ms.map fun v _ => v) s := by
  induction hms with
  | nil => exact ⟨start, hstart, remaining_nil.symm, fun c => .first c⟩
  | @cons m ms _ hm ih =>
    obtain ⟨s, hs, hfam, hsel⟩ := ih
    rw [← hfam] at hm
    have hmost := mostInfluential_congr (fun v hv => (hs.frequency v hv).symm) hm
    have hpick : getMostInfluentialNode (.inFront g m fun _ => 0) (influenceStore s) =
        fun _ => m := funext (getMostInfluentialNode_inFront hmost _)
    have hlast := hsel (.inFront g m fun _ => 0)
    rw [hpick] at hlast
    obtain ⟨r⟩ := removal_nonempty g (fun _ => m) s
    refine ⟨r.after, r.consistent hs hbound, ?_, fun c => hlast.next r c⟩
    rw [r.family_after_const hs fun _ => rfl, hfam, remaining_cons]

/-- While a set is left, the picks are most influential nodes, the same on every host. -/
theorem Selection.most_influential (hstart : Consistent g start) (hbound : ∃ v, ¬ g.IsNode v)
    {k : ℕ} (hleft : ∀ ms, Greedy (MostInfluential g) (family start) ms → ms.length < k →
      ∃ x, (remaining (family start) ms x).Nonempty)
    (hsel : Selection g start picks s) (hk : picks.length ≤ k) :
    ∃ ms, Greedy (MostInfluential g) (family start) ms ∧ picks = ms.map fun v _ => v := by
  have hpick {s : ∀ h, InfluenceHost H (n h)} {ms : List GlobalNodeID} (hs : Consistent g s)
      (hms : Greedy (MostInfluential g) (family start) ms)
      (hfam : family s = remaining (family start) ms) (hlt : ms.length < k) (c : PickChoice g) :
      ∃ m, Greedy (MostInfluential g) (family start) (m :: ms) ∧
        getMostInfluentialNode c (influenceStore s) = fun _ => m := by
    obtain ⟨x, hx⟩ := hleft ms hms hlt
    rcases hs.pick c with ⟨m, hm, hall⟩ | ⟨hempty, _⟩
    · rw [hfam] at hm
      exact ⟨m, .cons hms hm, funext hall⟩
    · rw [← hfam, hempty x] at hx
      exact absurd hx Finset.not_nonempty_empty
  induction hsel with
  | first c =>
    obtain ⟨m, hm, heq⟩ := hpick hstart .nil remaining_nil.symm hk c
    exact ⟨[m], hm, by rw [heq]; rfl⟩
  | @next p ps s hsel r c ih =>
    obtain ⟨ms, hms, heq⟩ := ih (Nat.le_of_succ_le hk)
    have hs := hsel.consistent hstart hbound
    have hlen := congrArg List.length heq
    rw [List.length_map] at hlen
    cases ms with
    | nil => exact absurd heq (List.cons_ne_nil p ps)
    | cons m ms =>
      obtain ⟨rfl, rfl⟩ := List.cons.inj heq
      have hfam : family r.after = remaining (family start) (m :: ms) := by
        by_cases hH : Nonempty (Fin H)
        · obtain ⟨h⟩ := hH
          have hmap : (ms.map fun v _ => v).map (fun q : Fin H → GlobalNodeID => q h) = ms := by
            rw [List.map_map]
            exact List.map_id ms
          rw [hsel.family_after hs r h, (hsel.greedy hstart hbound h).2, remaining_cons]
          simp only [List.tail_cons, hmap]
        · funext x
          exact absurd ⟨x.1⟩ hH
      have hlt : (m :: ms).length < k := hlen ▸ hk
      obtain ⟨m', hm', hpicked⟩ := hpick (r.consistent hs hbound) hms hfam hlt c
      exact ⟨m' :: m :: ms, hm', by rw [hpicked]; rfl⟩

/-- When greedy choices hit everything, the next pick may be any id. -/
theorem exists_junk_selection (hstart : Consistent g start) (hbound : ∃ v, ¬ g.IsNode v)
    (hms : Greedy (MostInfluential g) (family start) ms)
    (hempty : ∀ x, remaining (family start) ms x = ∅) {k : ℕ} (hk : ms.length < k)
    (hH : Nonempty (Fin H)) : ∃ picks s, Selection g start picks s ∧ picks.length = k ∧
      ¬ ReturnsDistinctNodes g picks := by
  obtain ⟨w, hw⟩ := hbound
  obtain ⟨s, hs, hfam, hsel⟩ := exists_selection hstart ⟨w, hw⟩ hms
  have hjunk : getMostInfluentialNode (.inFront g w fun _ => w) (influenceStore s) = fun _ => w := by
    rcases hs.pick (.inFront g w fun _ => w) with ⟨m, hm, _⟩ | ⟨_, hall⟩
    · have hpos := hm.positive
      rw [hfam, gain_eq_zero fun x => by rw [hempty x]; exact Finset.notMem_empty m] at hpos
      exact absurd hpos (Nat.lt_irrefl 0)
    · exact funext hall
  have hpicked := hsel (.inFront g w fun _ => w)
  rw [hjunk] at hpicked
  obtain ⟨more, s', hmore, hlen⟩ := hpicked.extend (k - (ms.length + 1))
  refine ⟨_, s', hmore, ?_, ?_⟩
  · rw [List.length_append, hlen, List.length_cons, List.length_map]
    omega
  · rintro ⟨l, hl, _, hnodes⟩
    obtain ⟨h⟩ := hH
    apply hw
    apply hnodes w
    rw [← hl h, influentialNodes]
    simp

end Greedy

/-- `GetInfluentialNodes` returns `k` distinct nodes, the same on all hosts, whatever its threads and
its uninitialised fields do, exactly when fewer than `k` most influential nodes never hit every
set. -/
theorem getInfluentialNodes_distinct_iff (store : Store H)
    (sets : ∀ h, Fin (n h) → Finset GlobalNodeID) (hstart : Consistent g (startSelection store sets))
    (hbound : ∃ v, ¬ g.IsNode v) {k : ℕ} (hk : 1 ≤ k) (hn : k ≤ ∑ h, (g.masters h).length) :
    (∀ picks s, Selection g (startSelection store sets) picks s → picks.length = k →
      ReturnsDistinctNodes g picks) ↔
    ∀ ms, Greedy (MostInfluential g) (family (startSelection store sets)) ms → ms.length < k →
      ∃ x, (remaining (family (startSelection store sets)) ms x).Nonempty := by
  constructor
  · intro hall ms hms hlt
    by_contra hnone
    have hempty : ∀ x, remaining (family (startSelection store sets)) ms x = ∅ := fun x =>
      Finset.not_nonempty_iff_eq_empty.mp fun hx => hnone ⟨x, hx⟩
    have hH : Nonempty (Fin H) := by
      by_contra hH
      have hzero : ∑ h, (g.masters h).length = 0 :=
        Finset.sum_eq_zero fun h _ => absurd ⟨h⟩ hH
      rw [hzero] at hn
      exact absurd (hk.trans hn) (Nat.not_succ_le_zero 0)
    obtain ⟨picks, s, hsel, hlen, hbad⟩ := exists_junk_selection hstart hbound hms hempty hlt hH
    exact hbad (hall picks s hsel hlen)
  · intro hleft picks s hsel hlen
    obtain ⟨ms, hms, rfl⟩ := hsel.most_influential hstart hbound hleft hlen.le
    obtain ⟨hnd, hnodes⟩ := greedy_nodup hms
    refine ⟨ms.reverse, fun h => ?_, List.nodup_reverse.mpr hnd, fun v hv =>
      hnodes v (List.mem_reverse.mp hv)⟩
    rw [influentialNodes, ← List.map_reverse, List.map_map]
    exact List.map_id ms.reverse

/-- One node of the chain covers both sets, so a first pick is always a node. -/
theorem getInfluentialNodes_distinct_iff_chain : ReturnsDistinctNodes chainGraph
    [getMostInfluentialNode (.inFront chainGraph 3 fun _ => 0) (influenceStore chainStart)] := by
  refine (getInfluentialNodes_distinct_iff chainCounts chainSets chain_consistent chain_bound
    (Nat.le_refl 1) (by decide)).mpr ?_ _ _ (.first _) rfl
  intro ms _ hlt
  have hnil : ms = [] := List.eq_nil_of_length_eq_zero (Nat.lt_one_iff.mp hlt)
  refine ⟨⟨0, 0⟩, 2, ?_⟩
  rw [hnil, remaining_nil]
  exact Finset.mem_singleton_self 2

/-- A second pick of the chain need not be a node: the first one covers both sets. -/
theorem getInfluentialNodes_junk_chain : Consistent chainGraph chainStart ∧
    2 ≤ ∑ h, (chainGraph.masters h).length ∧
    ¬ ∀ picks s, Selection chainGraph chainStart picks s → picks.length = 2 →
      ReturnsDistinctNodes chainGraph picks := by
  refine ⟨chain_consistent, by decide, fun hall => ?_⟩
  have hfirst : MostInfluential chainGraph (gain (family chainStart)) 2 := {
    node := by decide
    positive := by decide
    most := by
      intro v hv
      rcases chainGraph_node hv with rfl | rfl | rfl <;> decide
    first := by
      intro v hv heq
      rcases chainGraph_node hv with rfl | rfl | rfl
      · exact absurd heq (by decide)
      · exact le_rfl
      · exact absurd heq (by decide) }
  have hms : Greedy (MostInfluential chainGraph) (family chainStart) [2] :=
    .cons .nil (by rwa [remaining_nil])
  have hempty : ∀ x, remaining (family chainStart) [2] x = ∅ := fun x =>
    if_pos ⟨2, List.mem_singleton_self 2, Finset.mem_singleton_self 2⟩
  obtain ⟨picks, s, hsel, hlen, hbad⟩ := exists_junk_selection chain_consistent chain_bound hms hempty
    (Nat.lt_succ_self 1) ⟨0⟩
  exact hbad (hall picks s hsel hlen)

end Wf4
