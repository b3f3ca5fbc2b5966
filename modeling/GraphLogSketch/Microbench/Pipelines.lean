import GraphLogSketch.Microbench.LargeRuns
import GraphLogSketch.Scripts.EdgeListConvert
import GraphLogSketch.Scripts.InputGen
import GraphLogSketch.Scripts.Shufbel

/-! The two ways from an edge list to results: divided into batches for the benchmark, or converted and
shuffled for the one for large graphs. The last run of an algorithm finds the same on both. -/
namespace Microbench.Pipelines
open BenchmarkRuns ByteWords GraphConvert LargeRuns Scea TextStreams Tiling
open Scripts.DivideIntoBatches (Edge Fits readEdges readPairs skipComments)
open EditScalabilityLarge (Interleaving edgesUpTo)

section Text

end Text

section Shuffled
variable {es : List Edge}

theorem edgeList_append (es es' : List Edge) : edgeList (es ++ es') = edgeList es ++ edgeList es' := by
  simp [edgeList]

/-- The bytes of an edge. -/
theorem record_edgeList {j : ℕ} (hj : j < es.length) :
    Shufbel.record (edgeList es) j = edgeList [es[j]] := by
  have hsplit : es = es.take j ++ ([es[j]] ++ es.drop (j + 1)) := by
    rw [List.singleton_append, ← List.drop_eq_getElem_cons hj, List.take_append_drop]
  have hbefore : (edgeList (es.take j)).length = 16 * j := by
    rw [edgeList_length, List.length_take_of_le hj.le]
  have hbytes : (edgeList [es[j]]).length = 16 := edgeList_length _
  have hfile : edgeList es = edgeList (es.take j) ++ (edgeList [es[j]] ++ edgeList (es.drop (j + 1))) := by
    rw [← edgeList_append, ← edgeList_append, ← hsplit]
  rw [Shufbel.record, hfile, ← hbefore, List.drop_left, ← hbytes, List.take_left]

theorem records_edgeList (es : List Edge) :
    Shufbel.records (edgeList es) = es.map fun e => edgeList [e] := by
  have hlen : (edgeList es).length / 16 = es.length := by
    rw [edgeList_length]
    omega
  rw [Shufbel.records, hlen]
  apply List.ext_getElem
  · simp
  · intro j hj _
    have hj : j < es.length := by simpa using hj
    simp [record_edgeList hj]

/-- A file is made up of its records. -/
theorem flatten_records {file : List UInt8} (h : file.length % 16 = 0) :
    (Shufbel.records file).flatten = file := by
  have hslices := flatMap_slices (fun j => 16 * j) file (Nat.mul_zero 16)
    (k := file.length / 16) fun j _ => Nat.mul_le_mul_left 16 (Nat.le_succ j)
  have hwhole : 16 * (file.length / 16) = file.length := by omega
  have hstep (j : ℕ) : 16 * (j + 1) - 16 * j = 16 := by omega
  simp only [hwhole, hstep, List.take_length] at hslices
  rw [Shufbel.records, ← List.flatMap_def]
  exact hslices

theorem edgeList_singleton_injective : Function.Injective fun e : Edge => edgeList [e] := by
  intro e e' h
  have hwords : wordAt (edgeList [e]) 0 = e.1 ∧ wordAt (edgeList [e]) 8 = e.2 :=
    wordAt_edgeList (k := 0) rfl
  have hwords' : wordAt (edgeList [e']) 0 = e'.1 ∧ wordAt (edgeList [e']) 8 = e'.2 :=
    wordAt_edgeList (k := 0) rfl
  dsimp only at h
  rw [h] at hwords
  exact Prod.ext (hwords.1.symm.trans hwords'.1) (hwords.2.symm.trans hwords'.2)

/-- A run of `shufbel` on a file of edges that fills its pages. -/
structure Shuffle (numEdges : ℕ) where
  pageSize : ℕ
  getIndex : ℕ → ℕ → ℕ
  order : List ℕ
  oldOutput : List UInt8
  pageSize_pos : 0 < pageSize
  pageSize_mod : pageSize % 16 = 0
  filled : pageSize ∣ 16 * numEdges
  getIndex_bijOn : Set.BijOn (fun j => getIndex j numEdges) (Set.Iio numEdges) (Set.Iio numEdges)
  order_perm : order.Perm (Shufbel.pages numEdges pageSize)

def Shuffle.main {numEdges : ℕ} (r : Shuffle numEdges) (data : List UInt8) : Option (List UInt8) :=
  Shufbel.main data r.pageSize r.getIndex r.order r.oldOutput

/-- The pages of a file that fills them. -/
theorem pages_length {n pageSize : ℕ} (hpos : 0 < pageSize) (hmod : pageSize % 16 = 0)
    (hfilled : pageSize ∣ 16 * n) : (Shufbel.pages n pageSize).length * pageSize = 16 * n := by
  obtain ⟨q, hq⟩ := hfilled
  have hsize : pageSize = 16 * (pageSize / 16) := by omega
  have hpage : 0 < pageSize / 16 := by omega
  have hn : n = pageSize / 16 * q := by
    rw [hsize, Nat.mul_assoc] at hq
    exact Nat.eq_of_mul_eq_mul_left (by decide) hq
  have hcount : (Shufbel.pages n pageSize).length = q := by
    rw [Shufbel.pages, List.length_map, List.length_range, hn, Nat.add_sub_assoc hpage,
      Nat.mul_add_div hpage, Nat.div_eq_of_lt (Nat.sub_lt hpage Nat.one_pos), Nat.add_zero]
  rw [hcount, hq, Nat.mul_comm]

/-- The output has the edges of the file in some order. -/
theorem Shuffle.main_edgeList {n : ℕ} (r : Shuffle n) (hn : es.length = n) (hpos : 0 < n) :
    ∃ shuffled : List Edge, shuffled.Perm es ∧ r.main (edgeList es) = some (edgeList shuffled) := by
  have hlen := edgeList_length es
  obtain rfl : (edgeList es).length / 16 = n := by omega
  have h16 : (edgeList es).length % 16 = 0 := by omega
  have hget (j : ℕ) (hj : j < (edgeList es).length / 16) :
      r.getIndex j ((edgeList es).length / 16) < (edgeList es).length / 16 :=
    r.getIndex_bijOn.mapsTo hj
  have hpages : (Shufbel.pages ((edgeList es).length / 16) r.pageSize).length * r.pageSize =
      (edgeList es).length :=
    (pages_length r.pageSize_pos r.pageSize_mod r.filled).trans (by omega)
  have hwhole := (Shufbel.output_length h16 r.pageSize_pos r.pageSize_mod hget r.order_perm
    r.oldOutput (by omega)).trans hpages
  have hrecords := Shufbel.output_records h16 r.pageSize_pos r.pageSize_mod hget r.order_perm hwhole
  have hgathered : ((List.range ((edgeList es).length / 16)).map fun j =>
      Shufbel.record (edgeList es) (r.getIndex j ((edgeList es).length / 16))).Perm
        ((List.range ((edgeList es).length / 16)).map (Shufbel.record (edgeList es))) :=
    Shufbel.gathered_perm r.getIndex_bijOn
  rw [← hrecords, ← Shufbel.records, records_edgeList] at hgathered
  have hshuffled : Shufbel.records (PositionalWrites.apply
      (r.order.map (Shufbel.page (edgeList es) r.getIndex r.pageSize))
      (Compaction.resize r.oldOutput 0 (edgeList es).length)) =
        ((List.range ((edgeList es).length / 16)).map fun j =>
          es.getD (r.getIndex j ((edgeList es).length / 16)) (0, 0)).map fun e => edgeList [e] := by
    rw [hrecords, List.map_map]
    apply List.map_congr_left
    intro j hj
    have hlt : r.getIndex j ((edgeList es).length / 16) < es.length :=
      (hget j (List.mem_range.mp hj)).trans_eq hn.symm
    rw [Function.comp_apply, List.getD_eq_getElem _ _ hlt]
    exact record_edgeList hlt
  set shuffled : List Edge := (List.range ((edgeList es).length / 16)).map fun j =>
    es.getD (r.getIndex j ((edgeList es).length / 16)) (0, 0)
  refine ⟨shuffled, ?_, ?_⟩
  · rw [hshuffled] at hgathered
    exact (List.map_perm_map_iff edgeList_singleton_injective).mp hgathered
  · have hfile := flatten_records (hwhole.symm ▸ h16)
    have hlist : (Shufbel.records (edgeList shuffled)).flatten = edgeList shuffled :=
      flatten_records (by rw [edgeList_length]; omega)
    rw [hshuffled, ← records_edgeList, hlist] at hfile
    rw [Shuffle.main, Shufbel.main, if_neg (by omega), ← hfile]

end Shuffled

section Runs
variable {S : SomeGraph} {ρ : Type} {algo : Algo S ρ} {find : List Edge → ρ} {es : List Edge}

variable {comments : List (List Char)} (hcomments : ∀ body ∈ comments, '\n' ∉ body ∧ '\r' ∉ body)
  (hne : es ≠ [])
include hcomments hne

end Runs

section Generated
open Scripts.InputGen
variable {P : Type} {pcg : Pcg32 P} {state : UInt64 → P} {vertFeistel edgeFeistel : Feistel}
  {rawS : ℕ} {edgeFactor rawSeedA rawSeedB rawSeedC : UInt64} {ip : InputParams}

end Generated

section GeneratedExample
open Scripts.InputGen

end GeneratedExample

section Example

end Example
end Microbench.Pipelines
