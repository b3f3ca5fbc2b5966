import GraphLogSketch.Wf4.EdgeMessage

/-! The sets in which a host puts trades aside for other hosts, and what the hosts receive when they
have exchanged them. -/
namespace Wf4
variable {H : ℕ}

/-- A hash set of proposed edges; equal edges have equal end points. -/
structure TradeSet where
  edges : List (ProposedEdge ℚ)
  keys_nodup : (edges.map ProposedEdge.key).Nodup

namespace TradeSet

theorem empty_keys_nodup : (([] : List (ProposedEdge ℚ)).map ProposedEdge.key).Nodup :=
  List.nodup_nil

def empty : TradeSet := ⟨[], empty_keys_nodup⟩

/-- `lazy_emplace_l`: an edge that is present already is left alone. -/
def emplace (s : TradeSet) (e : ProposedEdge ℚ) : TradeSet :=
  if h : e.key ∈ s.edges.map ProposedEdge.key then s
  else ⟨e :: s.edges, List.nodup_cons.mpr ⟨h, s.keys_nodup⟩⟩

end TradeSet

/-- The outgoing sets of a host, one for each destination. -/
abbrev RemoteEdges (H : ℕ) := Fin H → TradeSet

def RemoteEdges.emplace (r : RemoteEdges H) (k : Fin H) (e : ProposedEdge ℚ) : RemoteEdges H :=
  Function.update r k ((r k).emplace e)

/-- What a host receives: everything the others had for it. -/
def receivedEdges (remote : Fin H → RemoteEdges H) (k : Fin H) : List (ProposedEdge ℚ) :=
  (List.finRange H).flatMap fun h => if h = k then [] else (remote h k).edges

/-- The sets that were sent are left empty. -/
def sentEdges (h : Fin H) (r : RemoteEdges H) : RemoteEdges H := fun k =>
  if k = h then r k else TradeSet.empty

/-- The edges of one buyer. -/
def bySrc (v : GlobalNodeID) (key : GlobalNodeID × GlobalNodeID) : ℚ := if key.1 = v then 1 else 0

/-- The edges of one seller. -/
def byDst (v : GlobalNodeID) (key : GlobalNodeID × GlobalNodeID) : ℚ := if key.2 = v then 1 else 0

/-- The edges of one buyer and one seller. -/
def byKey (k key : GlobalNodeID × GlobalNodeID) : ℚ := if key = k then 1 else 0

theorem bySrc_nonneg (v : GlobalNodeID) (key : GlobalNodeID × GlobalNodeID) : 0 ≤ bySrc v key := by
  unfold bySrc
  split_ifs <;> norm_num

theorem eq_of_bySrc_ne_zero {v : GlobalNodeID} {key : GlobalNodeID × GlobalNodeID}
    (h : bySrc v key ≠ 0) : key.1 = v := by
  by_contra hne
  exact h (if_neg hne)

theorem eq_of_byKey_ne_zero {k key : GlobalNodeID × GlobalNodeID} (h : byKey k key ≠ 0) :
    key = k := by
  by_contra hne
  exact h (if_neg hne)

section Sums
/-- A sum of weights in which each edge counts with a factor given by its end points. -/
def keyedSum (f : GlobalNodeID × GlobalNodeID → ℚ) (l : List (ProposedEdge ℚ)) : ℚ :=
  (l.map fun e => f e.key * e.weight).sum

variable (f : GlobalNodeID × GlobalNodeID → ℚ)

@[simp] theorem keyedSum_nil : keyedSum f [] = 0 := rfl

@[simp] theorem keyedSum_cons (e : ProposedEdge ℚ) (l : List (ProposedEdge ℚ)) :
    keyedSum f (e :: l) = f e.key * e.weight + keyedSum f l := by simp [keyedSum]

theorem keyedSum_perm {l m : List (ProposedEdge ℚ)} (h : l.Perm m) :
    keyedSum f l = keyedSum f m := (h.map _).sum_eq

theorem keyedSum_eq_zero {l : List (ProposedEdge ℚ)} (h : ∀ e ∈ l, f e.key = 0) :
    keyedSum f l = 0 := by
  apply List.sum_eq_zero
  intro x hx
  obtain ⟨e, he, rfl⟩ := List.mem_map.mp hx
  rw [h e he, zero_mul]

/-- Only the indices of a list count, so threads over them can be summed instead. -/
theorem keyedSum_get (l : List (ProposedEdge ℚ)) :
    keyedSum f l = ∑ i : Fin l.length, f (l.get i).key * (l.get i).weight := by
  rw [keyedSum, ← List.sum_ofFn]
  congr 1
  apply List.ext_getElem <;> simp

/-- What all hosts receive is what the hosts have put aside for others. -/
theorem keyedSum_received (remote : Fin H → RemoteEdges H) (k : Fin H) :
    keyedSum f (receivedEdges remote k) =
      ∑ h, if h = k then 0 else keyedSum f (remote h k).edges := by
  have hflat (hs : List (Fin H)) :
      keyedSum f (hs.flatMap fun h => if h = k then [] else (remote h k).edges) =
        (hs.map fun h => if h = k then 0 else keyedSum f (remote h k).edges).sum := by
    induction hs with
    | nil => rfl
    | cons h hs ih =>
      rw [List.map_cons, List.sum_cons, ← ih, List.flatMap_cons, keyedSum, List.map_append,
        List.sum_append]
      split_ifs <;> rfl
  rw [receivedEdges, hflat, ← List.sum_ofFn]
  congr 1
  apply List.ext_getElem <;> simp

theorem mem_receivedEdges {remote : Fin H → RemoteEdges H} {k : Fin H}
    {e : ProposedEdge ℚ} :
    e ∈ receivedEdges remote k ↔ ∃ h, h ≠ k ∧ e ∈ (remote h k).edges := by
  rw [receivedEdges, List.mem_flatMap]
  constructor
  · rintro ⟨h, _, he⟩
    split_ifs at he with hk
    · simp at he
    · exact ⟨h, hk, he⟩
  · rintro ⟨h, hk, he⟩
    exact ⟨h, List.mem_finRange h, by rwa [if_neg hk]⟩

end Sums

namespace TradeSet
variable {s : TradeSet} {e p : ProposedEdge ℚ}

theorem mem_emplace (h : p ∈ (s.emplace e).edges) : p = e ∨ p ∈ s.edges := by
  unfold emplace at h
  split_ifs at h
  · exact Or.inr h
  · simpa using h

theorem mem_emplace_of_mem (h : p ∈ s.edges) : p ∈ (s.emplace e).edges := by
  unfold emplace
  split_ifs
  · exact h
  · exact List.mem_cons_of_mem _ h

/-- After the insertion some edge has the key. -/
theorem exists_key_emplace : ∃ p ∈ (s.emplace e).edges, p.key = e.key := by
  unfold emplace
  split_ifs with h
  · exact List.mem_map.mp h
  · exact ⟨e, List.mem_cons_self, rfl⟩

theorem keyedSum_emplace (f : GlobalNodeID × GlobalNodeID → ℚ) :
    keyedSum f (s.emplace e).edges = keyedSum f s.edges +
      if e.key ∈ s.edges.map ProposedEdge.key then 0 else f e.key * e.weight := by
  unfold emplace
  split_ifs
  · rw [add_zero]
  · rw [keyedSum_cons, add_comm]

end TradeSet

namespace RemoteEdges
variable {r : RemoteEdges H} {k j : Fin H} {e p : ProposedEdge ℚ}

theorem mem_emplace (h : p ∈ (r.emplace k e j).edges) : (p = e ∧ j = k) ∨ p ∈ (r j).edges := by
  by_cases hj : j = k
  · subst hj
    rw [emplace, Function.update_self] at h
    exact (TradeSet.mem_emplace h).imp_left fun hp => ⟨hp, rfl⟩
  · rw [emplace, Function.update_of_ne hj] at h
    exact Or.inr h

theorem mem_emplace_of_mem (h : p ∈ (r j).edges) : p ∈ (r.emplace k e j).edges := by
  by_cases hj : j = k
  · subst hj
    rw [emplace, Function.update_self]
    exact TradeSet.mem_emplace_of_mem h
  · rwa [emplace, Function.update_of_ne hj]

theorem exists_key_emplace : ∃ p ∈ (r.emplace k e k).edges, p.key = e.key := by
  rw [emplace, Function.update_self]
  exact TradeSet.exists_key_emplace

/-- The weighted sum of everything a host has put aside. -/
def total (f : GlobalNodeID × GlobalNodeID → ℚ) (r : RemoteEdges H) : ℚ :=
  ∑ k, keyedSum f (r k).edges

theorem total_emplace (f : GlobalNodeID × GlobalNodeID → ℚ) :
    (r.emplace k e).total f = r.total f +
      if e.key ∈ (r k).edges.map ProposedEdge.key then 0 else f e.key * e.weight := by
  have hrest : ∑ j ∈ Finset.univ.erase k, keyedSum f (r.emplace k e j).edges =
      ∑ j ∈ Finset.univ.erase k, keyedSum f (r j).edges :=
    Finset.sum_congr rfl fun j hj => by
      rw [emplace, Function.update_of_ne (Finset.ne_of_mem_erase hj)]
  rw [total, total, ← Finset.add_sum_erase _ _ (Finset.mem_univ k),
    ← Finset.add_sum_erase _ (fun j => keyedSum f (r j).edges) (Finset.mem_univ k), hrest,
    emplace, Function.update_self, TradeSet.keyedSum_emplace]
  ring

/-- An edge the factor ignores changes nothing. -/
theorem total_emplace_of_zero {f : GlobalNodeID × GlobalNodeID → ℚ} (hf : f e.key = 0) :
    (r.emplace k e).total f = r.total f := by
  rw [total_emplace, hf, zero_mul, ite_self, add_zero]

theorem total_emplace_le {f : GlobalNodeID × GlobalNodeID → ℚ} (hf : 0 ≤ f e.key * e.weight) :
    (r.emplace k e).total f ≤ r.total f + f e.key * e.weight := by
  rw [total_emplace]
  split_ifs <;> linarith

/-- Where the factor ignores all destinations but one, only that one counts. -/
theorem total_eq {f : GlobalNodeID × GlobalNodeID → ℚ}
    (h : ∀ j, j ≠ k → ∀ p ∈ (r j).edges, f p.key = 0) : r.total f = keyedSum f (r k).edges :=
  Finset.sum_eq_single_of_mem k (Finset.mem_univ k) fun j _ hj => keyedSum_eq_zero f (h j hj)

@[simp] theorem total_empty (f : GlobalNodeID × GlobalNodeID → ℚ) :
    total f (fun _ : Fin H => TradeSet.empty) = 0 := by simp [total, TradeSet.empty]

end RemoteEdges
end Wf4
