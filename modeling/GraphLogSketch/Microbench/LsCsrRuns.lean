import GraphLogSketch.Microbench.LargeRuns
import GraphLogSketch.Scea.LsCsr

/-! Runs of the benchmarks on the log-structured rows, the graph that both take unless they are told to take
another. -/
namespace Microbench.LsCsrRuns
open BenchmarkRuns GraphConvert LargeRuns Scea Workload
open Scripts.DivideIntoBatches (Edge)
open EditScalabilityLarge (Interleaving edgesUpTo)

section Finds
variable {γ : Type} {L : LsLcCsrGraph γ} {es : List Edge}

theorem bfs_finds (hL : L.Lawful) (compactThreshold : ℚ≥0) (hsize : 8 * vertexBound es ≤ 2 ^ 64)
    (picks : ℕ → ℕ → List ℕ) (src : ℕ) :
    Finds (lsCsrGraph L compactThreshold) (bfs (lsCsrGraph L compactThreshold) picks src)
      (fun l => some ((edgeLists l).distances src)) es where
  congr _ _ h := congrArg some ((edgeLists_same h).distances src)
  found l cs hl hcs time := by
    have hholds := (lsCsr_holds hL compactThreshold hcs.first).same hcs.same
    have hmono := vertexBound_mono hl.subset
    exact hholds.bfs ((Nat.mul_le_mul_left 8 hmono).trans hsize) (picks time) src

end Finds

end Microbench.LsCsrRuns
