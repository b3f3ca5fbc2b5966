import GraphLogSketch.Scea.GaloisGraphs

/-! The graph types that a benchmark can be told to use, and that it does not matter which: breadth-first
search finds the same on all of them, and the other algorithms do where no edge is ingested twice. -/
namespace Scea
open ShortestPaths

/-- The values of the option `graph`, but for the log-structured rows. -/
inductive GraphType where
  | lccsr
  | csr
  | morph
  | adj
  deriving DecidableEq, Repr

/-- What comes from the library: a prefix sum and the two graphs. -/
structure Galois where
  computePrefixSum : List (List ℕ) → List ℕ
  LcCsrState : Type
  lcCsr : LcCsr64Graph LcCsrState
  MorphState : Type
  MorphNode : Type
  morph : GaloisMorphGraph MorphState MorphNode

structure Galois.Lawful (lib : Galois) : Prop where
  prefixSums : PrefixSums lib.computePrefixSum
  lcCsr : lib.lcCsr.Lawful
  morph : lib.morph.Lawful

/-- A class of graphs and a new one. -/
structure SomeGraph where
  State : Type
  ops : MutableGraph State
  new : State

namespace SomeGraph

def calls (S : SomeGraph) (cs : List Call) : S.State := S.ops.calls S.new cs

end SomeGraph

def graphOf (lib : Galois) : GraphType → SomeGraph
  | .lccsr => ⟨LcCsr lib.LcCsrState, lcCsr lib.lcCsr, .new⟩
  | .csr => ⟨Csr, csr lib.computePrefixSum, .new⟩
  | .morph => ⟨MorphGraph lib.MorphState lib.MorphNode, morphGraph lib.morph, .new lib.morph⟩
  | .adj => ⟨AdjGraph, adjGraph, .new⟩

/-- What a graph keeps of the edges. -/
def GraphType.kept (t : GraphType) (M : EdgeLists) : EdgeLists := if t = .morph then M.simple else M

section GraphTypes
variable {lib : Galois} {cs ds : List Call} {t t' : GraphType} {M : EdgeLists}

@[simp] theorem GraphType.kept_size (t : GraphType) (M : EdgeLists) : (t.kept M).size = M.size := by
  unfold GraphType.kept
  split_ifs <;> rfl

theorem GraphType.kept_distances (t : GraphType) (M : EdgeLists) (src : ℕ) :
    (t.kept M).distances src = M.distances src := by
  unfold GraphType.kept
  split_ifs
  · exact EdgeLists.distances_simple M src
  · rfl

theorem GraphType.kept_same {N : EdgeLists} (t : GraphType) (h : M.Same N) :
    (t.kept M).Same (t.kept N) := by
  unfold GraphType.kept
  split_ifs
  · exact ⟨h.size, fun v hv => (h.out v hv).dedup⟩
  · exact h

theorem graphOf_holds (hlib : lib.Lawful) (t : GraphType) (cs : List Call) :
    Holds (graphOf lib t).ops ((graphOf lib t).calls cs) (t.kept (.ofBatches (batches cs))) := by
  cases t with
  | lccsr => exact (lcCsr_calls_ok hlib.lcCsr cs).holds hlib.lcCsr
  | csr => exact csr_holds hlib.prefixSums cs
  | morph =>
    obtain ⟨_, hok⟩ := morphGraph_calls_ok hlib.morph cs
    exact hok.holds
  | adj => exact (adjGraph_calls_ok cs).holds

end GraphTypes

section Kept
variable {lib : Galois} {t t' : GraphType} {cs ds : List Call}

end Kept

section Reference

/-- Rows of destinations. -/
def rows : LcCsr64Graph (List (List ℕ)) where
  construct numNodes _ edgeNum edgeDst :=
    (List.range numNodes).map fun src => (List.range (edgeNum src)).map (edgeDst src)
  getDegree g src := (g.getD src []).length
  edges g src := g.getD src []
  sortEdgesByDst g src := g.modify src (·.mergeSort)
  findEdgeSortedByDst g src dst := (g.getD src []).contains dst

theorem rows_lawful : rows.Lawful where
  construct numNodes _ edgeNum edgeDst _ src hsrc := by
    show List.getD _ src [] = _
    simp [rows, hsrc]
  degree _ _ := rfl
  sort g src v := by
    show (g.modify src (·.mergeSort)).getD v [] = if v = src then (g.getD v []).mergeSort else g.getD v []
    split_ifs with hv
    · subst hv
      by_cases hlt : v < g.length
      · simp [hlt]
      · simp [hlt]
    · simp [Ne.symm hv]
  find g src dst _ := List.contains_iff_mem

/-- Nodes are numbered, and have their data and the nodes that their edges lead to. -/
def nodeTable : GaloisMorphGraph (List (ℕ × List ℕ)) ℕ where
  empty := []
  size := List.length
  containsNode g n := n < g.length
  createNode g i := (g.length, g ++ [(i, [])])
  addNode g _ := g
  addEdge g a b := g.modify a fun p => (p.1, if b ∈ p.2 then p.2 else p.2 ++ [b])
  edges g n := (g.getD n (0, [])).2
  getData g n := (g.getD n (0, [])).1
  edgesSorted g n := (g.getD n (0, [])).2.Pairwise (· ≤ ·)
  sortEdgesByDst g n := g.modify n fun p => (p.1, p.2.mergeSort)
  findEdgeSortedByDst g a b := (g.getD a (0, [])).2.contains b

theorem getD_modify (g : List (ℕ × List ℕ)) (a n : ℕ) (f : ℕ × List ℕ → ℕ × List ℕ)
    (ha : a < g.length) : (g.modify a f).getD n (0, []) =
      if n = a then f (g.getD a (0, [])) else g.getD n (0, []) := by
  split_ifs with hn
  · subst hn
    simp [ha]
  · simp [Ne.symm hn]

theorem nodeTable_lawful : nodeTable.Lawful where
  empty := rfl
  addNode g i := by
    have hget (m : ℕ) (hm : m < g.length) : (g ++ [(i, [])]).getD m (0, []) = g.getD m (0, []) := by
      rw [List.getD_eq_getElem?_getD, List.getElem?_append_left hm, ← List.getD_eq_getElem?_getD]
    have hnew : (g ++ [(i, [])]).getD g.length (0, []) = (i, []) := by simp
    exact {
      fresh := lt_irrefl g.length
      contains := fun m => by
        show m < (g ++ [(i, [])]).length ↔ m < g.length ∨ m = g.length
        rw [List.length_append, List.length_singleton]
        exact Nat.lt_succ_iff_lt_or_eq
      size := List.length_append
      data := congrArg Prod.fst hnew
      edges := congrArg Prod.snd hnew
      dataOf := fun m hm => congrArg Prod.fst (hget m hm)
      edgesOf := fun m hm => congrArg Prod.snd (hget m hm) }
  addEdge g a b ha _ := by
    have hget (m : ℕ) := getD_modify g a m (fun p => (p.1, if b ∈ p.2 then p.2 else p.2 ++ [b])) ha
    have hself := hget a
    rw [if_pos rfl] at hself
    exact {
      nodes := {
        contains := fun m => by
          show m < (List.modify _ _ _).length ↔ m < g.length
          rw [List.length_modify]
        size := List.length_modify ..
        data := fun m _ => by
          refine (congrArg Prod.fst (hget m)).trans ?_
          by_cases hm : m = a
          · rw [if_pos hm, hm]
            rfl
          · rw [if_neg hm]
            rfl }
      absent := fun hb => by
        have hb : b ∉ (g.getD a (0, [])).2 := hb
        refine (List.Perm.of_eq (congrArg Prod.snd hself)).trans ?_
        show List.Perm (if b ∈ _ then _ else _) _
        rw [if_neg hb]
        exact List.perm_append_singleton b _
      present := fun hb => by
        have hb : b ∈ (g.getD a (0, [])).2 := hb
        refine (List.Perm.of_eq (congrArg Prod.snd hself)).trans ?_
        show List.Perm (if b ∈ _ then _ else _) _
        rw [if_pos hb]
        exact .rfl
      edgesOf := fun m hm => by
        have hm := hget m
        rw [if_neg ‹m ≠ a›] at hm
        exact congrArg Prod.snd hm }
  sort g a ha := by
    have hget (m : ℕ) := getD_modify g a m (fun p => (p.1, p.2.mergeSort)) ha
    have hself := congrArg Prod.snd (hget a)
    rw [if_pos rfl] at hself
    have hother (m : ℕ) (hm : m ≠ a) : ((g.modify a fun p => (p.1, p.2.mergeSort)).getD m
        (0, [])).2 = (g.getD m (0, [])).2 := by rw [hget, if_neg hm]
    exact {
      nodes := {
        contains := fun m => by
          show m < (List.modify _ _ _).length ↔ m < g.length
          rw [List.length_modify]
        size := List.length_modify ..
        data := fun m _ => by
          refine (congrArg Prod.fst (hget m)).trans ?_
          by_cases hm : m = a
          · rw [if_pos hm, hm]
            rfl
          · rw [if_neg hm]
            rfl }
      sorted := by
        show List.Pairwise _ (List.getD (List.modify _ _ _) a (0, [])).2
        rw [hself]
        exact mergeSort_sorted _
      edges := (List.Perm.of_eq hself).trans (List.mergeSort_perm _ _)
      sortedOf := fun m hm hsorted => by
        show List.Pairwise _ (List.getD (List.modify _ _ _) m (0, [])).2
        rw [hother m hm]
        exact hsorted
      edgesOf := hother }
  find g a b _ _ _ := List.contains_iff_mem

def referenceGalois : Galois := ⟨prefixSums, _, rows, _, _, nodeTable⟩

theorem referenceGalois_lawful : referenceGalois.Lawful := ⟨fun _ => rfl, rows_lawful, nodeTable_lawful⟩

end Reference

end Scea
