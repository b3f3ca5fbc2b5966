import GraphLogSketch.Microbench.BenchmarkRuns

/-! Whole runs of the benchmark for large graphs, with the edges that are ingested before the batches and
the file that the algorithm writes its results to. -/
namespace Microbench.LargeRuns
open Grouping Scea TextStreams Tiling GraphConvert BenchmarkRuns
open Scripts.DivideIntoBatches (Edge)
open EditScalability (Event executions)
open EditScalabilityLarge (Interleaving Prepares edgesUpTo edgesUpTo_le edgesUpTo_mono
  exists_of_forall₂ prepared prepared_edgeList)

/-- What happens for each of the batches. -/
def batchEvents (ms : List (List (UInt64 × List UInt64))) : List Event :=
  ms.flatMap fun m => [.ingest m, .postIngest, .algo]

/-- What happens to the graph, and when the algorithm runs; `none` is a failed assertion or mapping, or a
division by zero. -/
def main (file : List UInt8) (numEdgesToPreIngest numBatches : UInt64)
    (interleaving : ℕ → Interleaving) (preInterleaving : Interleaving) : Option (List Event) := do
  let (pre, ms) ← prepared file numEdgesToPreIngest numBatches interleaving preInterleaving
  return pre.toList.flatMap (fun m => [.ingest m, .postIngest]) ++ batchEvents ms

section Batches
variable {es : List Edge} {pre numBatches : UInt64} {seen : List Edge} {i : ℕ}

theorem edgesUpTo_pos {n pre b : ℕ} (hn : 0 < n) (hb : 0 < b) (i : ℕ) :
    0 < edgesUpTo n pre b (i + 1) := by
  rcases Nat.eq_zero_or_pos pre with rfl | hpos
  · have hall := le_mul_blockSize (n := n) hb
    have hsize : 0 < blockSize n b := by
      by_contra hzero
      rw [Nat.eq_zero_of_not_pos hzero, Nat.mul_zero] at hall
      omega
    have hmul : 0 < (i + 1) * blockSize n b := Nat.mul_pos (Nat.succ_pos i) hsize
    rw [edgesUpTo, Nat.sub_zero, Nat.zero_add]
    exact lt_min hn hmul
  · exact Nat.add_pos_left hpos _

/-- With its batch the graph has the part of the file up to the end of the batch. -/
theorem seen_next {n b : ℕ} {m : List (UInt64 × List UInt64)} (hm : Prepares es n b i m)
    (hseen : seen.Perm (es.take (edgesUpTo es.length n b i))) :
    (seen ++ pairs m).Perm (es.take (edgesUpTo es.length n b (i + 1))) := by
  have htake := List.take_add (l := es) (i := edgesUpTo es.length n b i)
    (j := edgesUpTo es.length n b (i + 1) - edgesUpTo es.length n b i)
  rw [Nat.add_sub_cancel' (edgesUpTo_mono es.length n b i)] at htake
  rw [htake]
  exact hseen.append hm.pairs

theorem batchEvents_edgeList {n b k : ℕ} (hne : es ≠ []) (hn : n ≤ es.length) (hb : 0 < b)
    {ms : List (List (UInt64 × List UInt64))}
    (hall : List.Forall₂ (Prepares es n b) (List.range' i k) ms)
    (hseen : seen.Perm (es.take (edgesUpTo es.length n b i))) :
    Turns seen (batchEvents ms) ∧
      List.Forall₂ List.Perm (executions seen (batchEvents ms)) ((List.range' i k).map fun j =>
        es.take (edgesUpTo es.length n b (j + 1))) := by
  induction k generalizing i seen ms with
  | zero =>
    obtain rfl := List.forall₂_nil_left_iff.mp hall
    exact ⟨.nil seen, .nil⟩
  | succ k ih =>
    rw [List.range'_succ] at hall
    obtain ⟨m, ms, hm, hrest, rfl⟩ := List.forall₂_cons_left_iff.mp hall
    have hnext := seen_next hm hseen
    obtain ⟨hturns, hruns⟩ := ih hrest hnext
    constructor
    · refine .ingest (fun hnil => ?_) hm.keys (.algo hturns)
      rintro rfl
      have hlen := hnext.length_eq
      have hpos : 0 < edgesUpTo es.length n b (i + 1) :=
        edgesUpTo_pos (List.length_pos_of_ne_nil hne) hb i
      have hle := edgesUpTo_le hn b (i + 1)
      rw [hnil, List.length_take] at hlen
      simp only [pairs, List.flatMap_nil, List.append_nil, List.length_nil] at hlen
      omega
    · rw [List.range'_succ]
      exact .cons hnext hruns

/-- The events on a file of edges. -/
theorem main_edgeList (interleaving : ℕ → Interleaving) (preInterleaving : Interleaving)
    (hne : es ≠ []) (hsize : 16 * es.length < 2 ^ 63) (hpre : pre.toNat ≤ es.length)
    (hb : numBatches ≠ 0) (hsum : es.length + numBatches.toNat < 2 ^ 64) :
    ∃ events, main (edgeList es) pre numBatches interleaving preInterleaving = some events ∧
      Turns [] events ∧ List.Forall₂ List.Perm (executions [] events)
        ((List.range numBatches.toNat).map fun j =>
          es.take (edgesUpTo es.length pre.toNat numBatches.toNat (j + 1))) := by
  obtain ⟨first, ms, hprepared, hfirst, hall⟩ := prepared_edgeList interleaving preInterleaving hne
    hsize hpre hb hsum
  have hpos : 0 < numBatches.toNat := Nat.pos_of_ne_zero fun h => hb (UInt64.toNat_inj.mp h)
  have hseen := hfirst.pairs
  rw [← Nat.add_zero pre.toNat, ← blockStart_zero (es.length - pre.toNat) numBatches.toNat,
    ← edgesUpTo] at hseen
  rw [List.range_eq_range'] at hall ⊢
  obtain ⟨hturns, hruns⟩ := batchEvents_edgeList hne hpre hpos hall hseen
  refine ⟨_, by rw [main, hprepared]; rfl, ?_⟩
  cases first with
  | none => exact ⟨hturns, hruns⟩
  | some m =>
    rw [Option.toList_some, List.flatMap_singleton] at hturns hruns
    refine ⟨.ingest (fun _ => ?_) (hfirst.keys m rfl) hturns, hruns⟩
    rintro rfl
    have hlen := hfirst.pairs.length_eq
    have hsome := hfirst.isSome.mp rfl
    have hlong := List.length_pos_of_ne_nil hne
    rw [Option.toList_some, List.flatMap_singleton, List.length_take] at hlen
    simp only [pairs, List.flatMap_nil, List.length_nil] at hlen
    omega

end Batches

section Runs
variable {es : List Edge} {seens runs : List (List Edge)}

variable {S : SomeGraph} {ρ : Type} {algo : Algo S ρ} {find : List Edge → ρ} {pre numBatches : UInt64}

end Runs

end Microbench.LargeRuns
