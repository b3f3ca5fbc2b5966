import GraphLogSketch.Scea.GraphTypes
import GraphLogSketch.Scea.TriangleTriples

/-! Triangle counting on the graphs whose sort does sort: it counts the same on all of them, whatever has
been sorted before. -/
namespace Scea
open BinarySearch TriangleCounting Triangles

/-- The graph stands for `M` as long as it keeps `inv`, and a search finds the edges of sorted vertices. -/
structure SortsEdges {σ : Type} (G : MutableGraph σ) (M : EdgeLists) (inv : σ → Prop)
    (sorted : σ → ℕ → Prop) : Prop where
  holds : ∀ g, inv g → Holds G g M
  keeps : ∀ g src, inv g → inv (G.sortEdges g src)
  sorts : ∀ g src, inv g → src < M.size → sorted (G.sortEdges g src) src
  keepsSorted : ∀ g src v, inv g → src < M.size → v < M.size → sorted g v →
    sorted (G.sortEdges g src) v
  finds : ∀ g v d, inv g → v < M.size → sorted g v → (G.findEdgeSorted g v d = true ↔ d ∈ M.out v)

section SortsEdges
variable {σ τ : Type} {G : MutableGraph σ} {K : MutableGraph τ} {M : EdgeLists} {inv : σ → Prop}
  {inv' : τ → Prop} {sorted : σ → ℕ → Prop} {sorted' : τ → ℕ → Prop} {g : σ} {k : τ}

theorem SortsEdges.foldl (h : SortsEdges G M inv sorted) (order : List ℕ)
    (horder : ∀ src ∈ order, src < M.size) (hg : inv g) :
    inv (order.foldl G.sortEdges g) ∧ ∀ v < M.size, v ∈ order ∨ sorted g v →
      sorted (order.foldl G.sortEdges g) v := by
  induction order generalizing g with
  | nil => exact ⟨hg, fun v _ hv => hv.resolve_left List.not_mem_nil⟩
  | cons src order ih =>
    have hsrc := horder src List.mem_cons_self
    obtain ⟨hinv, hsorted⟩ := ih (fun v hv => horder v (List.mem_cons_of_mem src hv))
      (h.keeps g src hg)
    refine ⟨hinv, fun v hv hwhy => hsorted v hv ?_⟩
    rcases hwhy with hmem | hold
    · rcases List.mem_cons.mp hmem with rfl | hmem
      · exact Or.inr (h.sorts g v hg hv)
      · exact Or.inl hmem
    · exact Or.inr (h.keepsSorted g src v hg hsrc hv hold)

/-- The first loop sorts the edges of all vertices. -/
theorem SortsEdges.sortAll (h : SortsEdges G M inv sorted) (hg : inv g) (schedule : Schedule) :
    inv (sortAll G schedule g) ∧ ∀ v < M.size, sorted (sortAll G schedule g) v := by
  have hsize : G.size g = M.size := (h.holds g hg).size
  have hmem (v : ℕ) : v ∈ schedule.order (G.size g) ↔ v < M.size := by
    rw [(schedule.perm _).mem_iff, List.mem_range, hsize]
  obtain ⟨hinv, hsorted⟩ := h.foldl (schedule.order (G.size g)) (fun v hv => (hmem v).mp hv) hg
  exact ⟨hinv, fun v hv => hsorted v hv (Or.inl ((hmem v).mpr hv))⟩

theorem SortsEdges.same {N : EdgeLists} (h : SortsEdges G M inv sorted) (hsame : M.Same N) :
    SortsEdges G N inv sorted where
  holds g hg := (h.holds g hg).same hsame
  keeps := h.keeps
  sorts g src hg hsrc := h.sorts g src hg (hsame.size ▸ hsrc)
  keepsSorted g src v hg hsrc hv := h.keepsSorted g src v hg (hsame.size ▸ hsrc) (hsame.size ▸ hv)
  finds g v d hg hv hsorted := by
    have hv : v < M.size := hsame.size ▸ hv
    rw [h.finds g v d hg hv hsorted, (hsame.out v hv).mem_iff]

/-- The counts on two graphs that stand for the same are the same. -/
theorem SortsEdges.compute_eq (h : SortsEdges G M inv sorted) (h' : SortsEdges K M inv' sorted')
    (hg : inv g) (hk : inv' k) (schedule schedule' : Schedule) :
    compute G schedule g = compute K schedule' k := by
  obtain ⟨hinv, hsorted⟩ := h.sortAll hg schedule
  obtain ⟨hinv', hsorted'⟩ := h'.sortAll hk schedule'
  have hG := h.holds _ hinv
  have hK := h'.holds _ hinv'
  unfold compute
  congr 1
  apply triangles_congr
  case hsize => rw [hG.size, hK.size]
  case hedges =>
    intro v hv
    rw [hG.size] at hv
    exact (hG.out v hv).trans (hK.out v hv).symm
  case hbound =>
    intro v hv d hd
    exact Finset.mem_range.mp (hG.within v (Finset.mem_range.mpr hv) d hd)
  case hfind =>
    intro v hv d
    rw [hG.size] at hv
    rw [Bool.eq_iff_iff, h.finds _ v d hinv hv (hsorted v hv),
      h'.finds _ v d hinv' hv (hsorted' v hv)]

/-- The lists by themselves. -/
def EdgeLists.graph (M : EdgeLists) : MutableGraph Unit where
  size _ := M.size
  getOutDegree _ v := (M.out v).length
  ingest _ _ := ()
  postIngest _ _ := ()
  forEachEdge _ := M.out
  sortEdges _ _ := ()
  findEdgeSorted _ v d := decide (d ∈ M.out v)

end SortsEdges

end Scea
