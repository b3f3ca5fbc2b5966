import Mathlib.Data.Finset.Basic
import Mathlib.Data.List.Nodup
import Mathlib.Logic.Relation
import Mathlib.Tactic

/-! Graph search that shows the successors of a node when it expands it. A search may stop early:
its unexpanded nodes are kept or dropped, and what is left is still joined to the root. -/
namespace GraphSearch

/-- The nodes found so far, those of them that wait to be expanded, and the expansions with the
successors they showed. -/
structure Search (V : Type*) where
  found : Finset V
  frontier : Finset V
  expanded : List (V × Finset V)

namespace Search
variable {V : Type*} (s : Search V)

/-- An edge that some expansion showed. -/
def Edge (a b : V) : Prop := ∃ out, (a, out) ∈ s.expanded ∧ b ∈ out

/-- A path over shown edges between found nodes. -/
def Joined (a b : V) : Prop := Relation.ReflTransGen (fun u v => s.Edge u v ∧ v ∈ s.found) a b

structure Sound (root : V) : Prop where
  root_mem : root ∈ s.found
  frontier_sub : s.frontier ⊆ s.found
  once : (s.expanded.map Prod.fst).Nodup
  expanded_mem : ∀ x ∈ s.expanded, x.1 ∈ s.found ∧ x.1 ∉ s.frontier
  joined : ∀ v ∈ s.found, s.Joined root v

/-- Nothing was forgotten. -/
structure Full : Prop where
  settled : ∀ v ∈ s.found, v ∉ s.frontier → ∃ out, (v, out) ∈ s.expanded
  closed : ∀ x ∈ s.expanded, x.2 ⊆ s.found

def start (root : V) : Search V := ⟨{root}, {root}, []⟩

variable [DecidableEq V]

def expand (v : V) (out : Finset V) : Search V :=
  ⟨s.found ∪ out, s.frontier.erase v ∪ (out \ s.found), s.expanded ++ [(v, out)]⟩

/-- Stop, and drop some nodes that were not expanded. -/
def truncate (drop : Finset V) : Search V := ⟨s.found \ drop, ∅, s.expanded⟩

end Search

section Rules
variable {V : Type*} {s : Search V} {root v : V}

theorem start_sound (root : V) : (Search.start root).Sound root := by
  constructor
  · exact Finset.mem_singleton_self root
  · exact Finset.Subset.refl _
  · exact List.nodup_nil
  · intro x hx
    simp [Search.start] at hx
  · intro v hv
    rw [Search.start, Finset.mem_singleton] at hv
    rw [hv]
    exact .refl

theorem start_full (root : V) : (Search.start root).Full := by
  constructor
  · intro v hv hn
    exact absurd hv hn
  · intro x hx
    simp [Search.start] at hx

theorem Search.Edge.source (hs : s.Sound root) {a b : V} (h : s.Edge a b) :
    a ∈ s.found ∧ a ∉ s.frontier := by
  obtain ⟨out, hout, _⟩ := h
  exact hs.expanded_mem (a, out) hout

variable [DecidableEq V]

/-- An expansion keeps the search sound: the expanded node leaves the frontier for good. -/
theorem Search.Sound.expand (hs : s.Sound root) (hv : v ∈ s.frontier) (out : Finset V) :
    (s.expand v out).Sound root := by
  have hvf : v ∈ s.found := hs.frontier_sub hv
  have hold {a b : V} (h : s.Joined a b) : (s.expand v out).Joined a b := by
    refine Relation.ReflTransGen.mono ?_ _ _ h
    rintro a b ⟨⟨o, ho, hb⟩, hf⟩
    exact ⟨⟨o, List.mem_append_left _ ho, hb⟩, Finset.mem_union_left _ hf⟩
  constructor
  · exact Finset.mem_union_left _ hs.root_mem
  · intro x hx
    rcases Finset.mem_union.mp hx with hx | hx
    · exact Finset.mem_union_left _ (hs.frontier_sub (Finset.mem_of_mem_erase hx))
    · exact Finset.mem_union_right _ (Finset.mem_sdiff.mp hx).1
  · have hnew : v ∉ s.expanded.map Prod.fst := by
      intro hmem
      obtain ⟨x, hx, rfl⟩ := List.mem_map.mp hmem
      exact (hs.expanded_mem x hx).2 hv
    rw [Search.expand, List.map_append]
    exact hs.once.append (List.nodup_singleton v) (List.disjoint_singleton.mpr hnew)
  · intro x hx
    rcases List.mem_append.mp hx with hx | hx
    · obtain ⟨hf, hn⟩ := hs.expanded_mem x hx
      refine ⟨Finset.mem_union_left _ hf, fun hx' => ?_⟩
      rcases Finset.mem_union.mp hx' with hx' | hx'
      · exact hn (Finset.mem_of_mem_erase hx')
      · exact (Finset.mem_sdiff.mp hx').2 hf
    · obtain rfl := List.mem_singleton.mp hx
      refine ⟨Finset.mem_union_left _ hvf, fun hx' => ?_⟩
      rcases Finset.mem_union.mp hx' with hx' | hx'
      · exact Finset.notMem_erase v _ hx'
      · exact (Finset.mem_sdiff.mp hx').2 hvf
  · intro w hw
    rcases Finset.mem_union.mp hw with hw' | hw'
    · exact hold (hs.joined w hw')
    · exact (hold (hs.joined v hvf)).tail
        ⟨⟨out, List.mem_append_right _ (List.mem_singleton_self _), hw'⟩, hw⟩

theorem Search.Full.expand (hf : s.Full) (v : V) (out : Finset V) : (s.expand v out).Full := by
  constructor
  · intro w hw hn
    by_cases hwv : w = v
    · rw [hwv]
      exact ⟨out, List.mem_append_right _ (List.mem_singleton_self _)⟩
    · have hnot := fun hx => hn (Finset.mem_union_left _ hx)
      have hfound : w ∈ s.found := by
        by_contra hnf
        have hout := (Finset.mem_union.mp hw).resolve_left hnf
        exact hn (Finset.mem_union_right _ (Finset.mem_sdiff.mpr ⟨hout, hnf⟩))
      obtain ⟨o, ho⟩ := hf.settled w hfound fun hx => hnot (Finset.mem_erase.mpr ⟨hwv, hx⟩)
      exact ⟨o, List.mem_append_left _ ho⟩
  · intro x hx
    rcases List.mem_append.mp hx with hx | hx
    · exact (hf.closed x hx).trans Finset.subset_union_left
    · obtain rfl := List.mem_singleton.mp hx
      exact Finset.subset_union_right

/-- Dropping nodes that were not expanded cuts no path to another node. -/
theorem Search.Sound.truncate (hs : s.Sound root) {drop : Finset V} (hd : drop ⊆ s.frontier)
    (hroot : root ∉ drop) : (s.truncate drop).Sound root := by
  have hkeep {a : V} (ha : a ∈ s.found ∧ a ∉ s.frontier) : a ∈ s.found \ drop :=
    Finset.mem_sdiff.mpr ⟨ha.1, fun hx => ha.2 (hd hx)⟩
  constructor
  · exact Finset.mem_sdiff.mpr ⟨hs.root_mem, hroot⟩
  · exact Finset.empty_subset _
  · exact hs.once
  · intro x hx
    exact ⟨hkeep (hs.expanded_mem x hx), Finset.notMem_empty _⟩
  · intro v hv
    have hj := hs.joined v (Finset.mem_sdiff.mp hv).1
    induction hj with
    | refl => exact .refl
    | tail _ hab ih => exact (ih (hkeep (hab.1.source hs))).tail ⟨hab.1, hv⟩

omit [DecidableEq V] in
/-- The nodes found are those that the shown edges reach. -/
theorem Search.Full.found_iff (hf : s.Full) (hs : s.Sound root) {v : V} :
    v ∈ s.found ↔ Relation.ReflTransGen s.Edge root v := by
  constructor
  · intro hv
    exact Relation.ReflTransGen.mono (fun _ _ h => h.1) _ _ (hs.joined v hv)
  · intro hv
    induction hv with
    | refl => exact hs.root_mem
    | tail _ hab _ =>
      obtain ⟨out, hout, hb⟩ := hab
      exact hf.closed _ hout hb

omit [DecidableEq V] in
/-- A search that ran until its frontier was empty, and always showed the successors under `R`,
has found the nodes that `R` reaches. -/
theorem Search.Full.found_iff_of_rel (hf : s.Full) (hs : s.Sound root) (hempty : s.frontier = ∅)
    {R : V → V → Prop} (hR : ∀ x ∈ s.expanded, ∀ b, b ∈ x.2 ↔ R x.1 b) {v : V} :
    v ∈ s.found ↔ Relation.ReflTransGen R root v := by
  constructor
  · intro hv
    refine Relation.ReflTransGen.mono ?_ _ _ ((hf.found_iff hs).mp hv)
    rintro a b ⟨out, hout, hb⟩
    exact (hR _ hout b).mp hb
  · intro hv
    induction hv with
    | refl => exact hs.root_mem
    | tail _ hab ih =>
      obtain ⟨out, hout⟩ := hf.settled _ ih (by simp [hempty])
      exact hf.closed _ hout ((hR _ hout _).mpr hab)

end Rules
end GraphSearch
