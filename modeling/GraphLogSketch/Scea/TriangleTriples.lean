import GraphLogSketch.Library.Triangles
import GraphLogSketch.Scea.TriangleCounting

/-! What triangle counting counts on adjacency lists that name no destination twice: the increasing
triples of vertices with all three edges. -/
namespace Scea
open Triangles

namespace TriangleCounting
variable {σ : Type} {G : MutableGraph σ} {g : σ}

/-- A sum over a list without repetitions, taken over all numbers there could be in it. -/
theorem sum_map_of_nodup {l : List ℕ} {n : ℕ} (hl : l.Nodup) (hlt : ∀ x ∈ l, x < n) (f : ℕ → ℕ) :
    (l.map f).sum = ∑ x ∈ Finset.range n, if x ∈ l then f x else 0 := by
  have hset : (Finset.range n).filter (· ∈ l) = l.toFinset := by
    ext x
    simp only [Finset.mem_filter, Finset.mem_range, List.mem_toFinset]
    exact ⟨fun h => h.2, fun h => ⟨hlt x h, h⟩⟩
  rw [← Finset.sum_filter, hset, List.sum_toFinset f hl]

theorem countP_of_nodup {l : List ℕ} {n : ℕ} (hl : l.Nodup) (hlt : ∀ x ∈ l, x < n) (p : ℕ → Bool) :
    l.countP p = ∑ x ∈ Finset.range n, if x ∈ l ∧ p x = true then 1 else 0 := by
  have hsum : l.countP p = (l.map fun x => if p x = true then 1 else 0).sum := by
    induction l with
    | nil => rfl
    | cons x l ih =>
      rw [List.countP_cons, List.map_cons, List.sum_cons, add_comm,
        ih (List.nodup_cons.mp hl).2 fun y hy => hlt y (List.mem_cons_of_mem x hy)]
  rw [hsum, sum_map_of_nodup hl hlt]
  simp only [ite_and]

/-- Where lookups find exactly the edges and no edge is there twice, the second loop counts the
increasing triples. -/
theorem triangles_eq_ncard (hnodup : ∀ v, (G.forEachEdge g v).Nodup)
    (hbound : ∀ a b, b ∈ G.forEachEdge g a → a < G.size g ∧ b < G.size g)
    (hfind : ∀ v < G.size g, ∀ d, G.findEdgeSorted g v d = true ↔ d ∈ G.forEachEdge g v) :
    triangles G g = (increasing fun a b => b ∈ G.forEachEdge g a).ncard := by
  have hlt (a b : ℕ) (hb : b ∈ G.forEachEdge g a) : b < G.size g := (hbound a b hb).2
  rw [ncard_increasing_eq_sum (N := Finset.range (G.size g)) fun a b hb =>
    (hbound a b hb).imp Finset.mem_range.mpr Finset.mem_range.mpr]
  rw [triangles, sum_map_of_nodup List.nodup_range fun x => List.mem_range.mp]
  apply Finset.sum_congr rfl
  intro a ha
  rw [if_pos (List.mem_range.mpr (Finset.mem_range.mp ha)), sum_map_of_nodup (hnodup a) (hlt a)]
  apply Finset.sum_congr rfl
  intro b _
  split_ifs with hb hle
  · exact (Finset.sum_eq_zero fun c _ => if_neg fun h => not_le.mpr h.1 hle).symm
  · rw [countP_of_nodup (hnodup b) (hlt b)]
    apply Finset.sum_congr rfl
    intro c _
    have hiff : (c ∈ G.forEachEdge g b ∧ (decide (b < c) && G.findEdgeSorted g a c) = true) ↔
        a < b ∧ b < c ∧ b ∈ G.forEachEdge g a ∧ c ∈ G.forEachEdge g b ∧ c ∈ G.forEachEdge g a := by
      rw [Bool.and_eq_true, decide_eq_true_iff, hfind a (Finset.mem_range.mp ha) c]
      constructor
      · rintro ⟨hc, hbc, hac⟩
        exact ⟨not_le.mp hle, hbc, hb, hc, hac⟩
      · rintro ⟨-, hbc, -, hc, hac⟩
        exact ⟨hc, hbc, hac⟩
    simp only [hiff]
  · exact (Finset.sum_eq_zero fun c _ => if_neg fun h => hb h.2.2.1).symm

end TriangleCounting

open TriangleCounting

/-- After the first loop the second one counts the increasing triples of the edges ingested. -/
theorem AdjGraph.Ok.triangles_eq {bs : List Batch} {g : AdjGraph} (h : g.Ok bs)
    (hnodup : ∀ v, (destinations bs v).Nodup) (schedule : Schedule) :
    triangles adjGraph (TriangleCounting.sortAll adjGraph schedule g) =
      (increasing fun a b => b ∈ destinations bs a).ncard := by
  have hok := h.sortAll schedule
  have hsize : adjGraph.size (TriangleCounting.sortAll adjGraph schedule g) = vertexCount bs :=
    hok.count
  have hmem (a b : ℕ) : b ∈ adjGraph.forEachEdge (TriangleCounting.sortAll adjGraph schedule g) a ↔
      b ∈ destinations bs a := (hok.out a).mem_iff
  rw [triangles_eq_ncard (fun v => (hok.out v).nodup_iff.mpr (hnodup v))]
  · simp only [hmem]
  · intro a b hb
    rw [hsize]
    exact lt_vertexCount ((hmem a b).mp hb)
  · intro v hv d
    rw [hmem]
    exact h.findEdgeSorted schedule (hsize ▸ hv) d

/-- On adjacency lists without repeated destinations, however they were built, triangle counting gives
the number of increasing triples up to a multiple of `2 ^ 64`, only reorders the lists, and gives the
same again. -/
theorem adj_compute (cs : List Call)
    (hnodup : ∀ v, (adjGraph.forEachEdge (adjGraph.calls .new cs) v).Nodup)
    (schedule schedule' : Schedule) :
    let g := adjGraph.calls .new cs
    let edge := fun a b => b ∈ adjGraph.forEachEdge g a
    let g' := sortAll adjGraph schedule g
    (compute adjGraph schedule g).toNat = (increasing edge).ncard % 2 ^ 64 ∧
      ((increasing edge).ncard < 2 ^ 64 →
        (compute adjGraph schedule g).toNat = (increasing edge).ncard) ∧
      ((∀ a b, edge a b → edge b a) →
        (increasing edge).ncard = ((SimpleGraph.fromRel edge).cliqueSet 3).ncard) ∧
      (adjGraph.size g' = adjGraph.size g ∧
        ∀ v, (adjGraph.forEachEdge g' v).Perm (adjGraph.forEachEdge g v)) ∧
      compute adjGraph schedule' g' = compute adjGraph schedule g := by
  intro g edge g'
  have hg : g.Ok (batches cs) := adjGraph_calls_ok cs
  have hg' : g'.Ok (batches cs) := hg.sortAll schedule
  have hdest (v : ℕ) : (destinations (batches cs) v).Nodup := (hg.out v).nodup_iff.mp (hnodup v)
  have hedge : edge = fun a b => b ∈ destinations (batches cs) a := by
    funext a b
    exact propext (hg.out a).mem_iff
  have hcount : (compute adjGraph schedule g).toNat = (increasing edge).ncard % 2 ^ 64 := by
    rw [compute, hg.triangles_eq hdest, hedge]
    exact UInt64.toNat_ofNat'
  refine ⟨hcount, fun hfits => ?_, ncard_increasing,
    ⟨hg'.count.trans hg.count.symm, fun v => (hg'.out v).trans (hg.out v).symm⟩, ?_⟩
  · rw [hcount, Nat.mod_eq_of_lt hfits]
  · rw [compute, compute, hg.triangles_eq hdest, hg'.triangles_eq hdest]

theorem nodup_orderedTriangle (v : ℕ) :
    (adjGraph.forEachEdge (adjGraph.calls .new orderedTriangle) v).Nodup := by
  match v with
  | 0 => decide
  | 1 => decide
  | 2 => decide
  | _ + 3 => exact List.nodup_nil

theorem adj_compute_ordered :
    let g := adjGraph.calls .new orderedTriangle
    (compute adjGraph .sequential g).toNat =
        (increasing fun a b => b ∈ adjGraph.forEachEdge g a).ncard % 2 ^ 64 ∧
      compute adjGraph .sequential (sortAll adjGraph .sequential g) =
        compute adjGraph .sequential g := by
  have h := adj_compute orderedTriangle nodup_orderedTriangle .sequential .sequential
  exact ⟨h.1, h.2.2.2.2⟩

section Groups
variable {p q r v d : ℕ}

/-- Three groups of vertices, with an edge from each vertex to all those of later groups. -/
def groups (p q r : ℕ) : Batch :=
  (List.range p).map (fun a => (a, List.range' p (q + r))) ++
    (List.range' p q).map fun b => (b, List.range' (p + q) r)

theorem received_map {l : List ℕ} (hl : l.Nodup) (dests : List ℕ) (v : ℕ) :
    received (l.map fun a => (a, dests)) v = if v ∈ l then dests else [] := by
  induction l with
  | nil => rfl
  | cons a l ih =>
    obtain ⟨ha, hl⟩ := List.nodup_cons.mp hl
    show (if a = v then dests else []) ++ received (l.map fun a => (a, dests)) v = _
    rw [ih hl]
    by_cases hav : a = v
    · subst hav
      simp [ha]
    · simp [hav, Ne.symm hav]

theorem destinations_groups (p q r v : ℕ) : destinations [groups p q r] v =
    if v < p then List.range' p (q + r) else if v < p + q then List.range' (p + q) r else [] := by
  show received (_ ++ _) v ++ [] = _
  rw [List.append_nil, received, List.flatMap_append, ← received, ← received,
    received_map List.nodup_range, received_map List.nodup_range']
  simp only [List.mem_range, List.mem_range'_1]
  by_cases hp : v < p
  · rw [if_pos hp, if_neg (by omega), if_pos hp, List.append_nil]
  · rw [if_neg hp, if_neg hp, List.nil_append]
    simp only [not_lt.mp hp, true_and]

theorem mem_destinations_groups : d ∈ destinations [groups p q r] v ↔
    v < p ∧ p ≤ d ∧ d < p + q + r ∨ p ≤ v ∧ v < p + q ∧ p + q ≤ d ∧ d < p + q + r := by
  rw [destinations_groups]
  split_ifs with h1 h2
  · rw [List.mem_range'_1]
    omega
  · rw [List.mem_range'_1]
    omega
  · simp only [List.not_mem_nil, false_iff]
    omega

/-- A triple takes one vertex of each group. -/
theorem ncard_groups (p q r : ℕ) :
    (increasing fun a b => b ∈ destinations [groups p q r] a).ncard = p * q * r := by
  have hset : (increasing fun a b => b ∈ destinations [groups p q r] a) =
      (Finset.range p ×ˢ Finset.Ico p (p + q) ×ˢ Finset.Ico (p + q) (p + q + r) : Finset _) := by
    ext ⟨a, b, c⟩
    simp only [increasing, Set.mem_ofPred_eq, mem_destinations_groups, Finset.coe_product,
      Set.mem_prod, Finset.mem_coe, Finset.mem_range, Finset.mem_Ico]
    omega
  rw [hset, Set.ncard_coe_finset, Finset.card_product, Finset.card_product, Finset.card_range,
    Nat.card_Ico, Nat.card_Ico, Nat.add_sub_cancel_left, Nat.add_sub_cancel_left, mul_assoc]

theorem compute_groups (schedule : Schedule) (hcard : p * q * r = 2 ^ 64) :
    let g := adjGraph.calls .new [.batch (groups p q r) schedule]
    (∀ v, (adjGraph.forEachEdge g v).Nodup) ∧
      (increasing fun a b => b ∈ adjGraph.forEachEdge g a).ncard = 2 ^ 64 ∧
      compute adjGraph schedule g = 0 := by
  intro g
  have hg : g.Ok [groups p q r] := adjGraph_calls_ok [.batch (groups p q r) schedule]
  have hdest (v : ℕ) : (destinations [groups p q r] v).Nodup := by
    rw [destinations_groups]
    split_ifs
    · exact List.nodup_range'
    · exact List.nodup_range'
    · exact List.nodup_nil
  have hedge : (fun a b => b ∈ adjGraph.forEachEdge g a) = fun a b =>
      b ∈ destinations [groups p q r] a := by
    funext a b
    exact propext (hg.out a).mem_iff
  refine ⟨fun v => (hg.out v).nodup_iff.mpr (hdest v), ?_, ?_⟩
  · rw [hedge, ncard_groups, hcard]
  · rw [compute, hg.triangles_eq hdest, ncard_groups, hcard]
    decide

/-- The groups have more increasing triples than the counter can hold. -/
theorem adj_compute_groups :
    let g := adjGraph.calls .new [.batch (groups (2 ^ 21) (2 ^ 21) (2 ^ 22)) .sequential]
    (∀ v, (adjGraph.forEachEdge g v).Nodup) ∧
      (increasing fun a b => b ∈ adjGraph.forEachEdge g a).ncard = 2 ^ 64 ∧
      compute adjGraph .sequential g = 0 :=
  compute_groups .sequential (by norm_num)

end Groups

end Scea
