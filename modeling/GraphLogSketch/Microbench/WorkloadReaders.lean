import GraphLogSketch.Microbench.EditInput

/-! The script that counts the vertices and edges of a workload, on any input. The benchmark and the
script read a workload with the same loop over a line, which ends on some lines only. -/
namespace Scripts.CountBatched
open TextStreams TextStreams.InputStream Microbench.EditInput

structure Counts where
  maxVertexId : UInt64
  numEdges : UInt64
  deriving DecidableEq, Repr

/-- A turn of the loop over destinations. -/
def countDst (tmp : UInt64) (c : Counts) : Counts := ⟨max c.maxVertexId tmp, c.numEdges + 1⟩

/-- `while (!batch.eof())` -/
def countDsts (junk : Junk) (fuel i : ℕ) (batch : InputStream) (c : Counts) : Option Counts :=
  untilEof countDst (fun turn => junk i (turn + 1)) fuel 0 batch c

def countLine (junk : Junk) (fuel i : ℕ) (batchRaw : List Char) (c : Counts) :
    Option (Bool × Counts) :=
  let batch := ofText batchRaw
  let src := batch.extract.1.getD (junk i 0)
  (countDsts junk fuel i batch.extract.2 { c with maxVertexId := max c.maxVertexId src }).map
    fun c => (true, c)

/-- The counts go on over the batches. -/
def main (junk : Junk) (fuel : ℕ) (input : List Char) : Option Counts :=
  forBatches (countLine junk fuel) id 0 (ofText input) ⟨0, 0⟩

section Ends
variable {junk : Junk}

theorem countDsts_isSome_iff (i : ℕ) (line : List Char) (c : Counts) :
    (∃ fuel, (countDsts junk fuel i (ofText line).extract.2 c).isSome) ↔ Numerals line :=
  untilEof_isSome_iff line c

theorem of_countLine_isSome {fuel i : ℕ} {line : List Char} {c : Counts}
    (h : (countLine junk fuel i line c).isSome) : Numerals line := by
  unfold countLine at h
  rw [Option.isSome_map] at h
  exact numerals_of_rest _ _ _ h

theorem countLine_isSome {fuel : ℕ} {line : List Char} (hfuel : line.length ≤ fuel)
    (h : Numerals line) (i : ℕ) (c : Counts) : (countLine junk fuel i line c).isSome := by
  unfold countLine
  rw [Option.isSome_map]
  exact untilEof_rest_isSome h _ _ hfuel

theorem main_isSome_iff (junk : Junk) (input : List Char) :
    (∃ fuel, (main junk fuel input).isSome) ↔
      ∀ line ∈ input.splitOn '\n', line ≠ [] → Numerals line := by
  refine forBatches_isSome_iff (fun fuel i line c h => ?_) (fun fuel line hfuel h => ?_) input _
  · exact of_countLine_isSome h
  · exact countLine_isSome hfuel h

end Ends

end Scripts.CountBatched

namespace Microbench.WorkloadReaders
open TextStreams TextStreams.InputStream EditInput EditScalability Scripts

section Ends
variable {line input : List Char}

/-- The loops over the destinations of a line end, whatever has been read in front of it. -/
def LoopsEnd (line : List Char) : Prop :=
  (∀ numVertices junk i src b,
    ∃ fuel, (readDsts numVertices junk fuel i src (ofText line).extract.2 b).isSome) ∧
  ∀ junk i c, ∃ fuel, (CountBatched.countDsts junk fuel i (ofText line).extract.2 c).isSome

/-- The benchmark ends in every build, and so does the script. -/
def ProgramsEnd (input : List Char) : Prop :=
  (∀ hashOrder numVertices junk,
    ∃ fuel, (main hashOrder numVertices junk fuel input).isSome) ∧
  ∀ junk, ∃ fuel, (CountBatched.main junk fuel input).isSome

theorem loopsEnd_iff : LoopsEnd line ↔ Numerals line := by
  constructor
  · rintro ⟨-, hcount⟩
    exact (CountBatched.countDsts_isSome_iff 0 line ⟨0, 0⟩).mp (hcount (fun _ _ => 0) 0 ⟨0, 0⟩)
  · intro h
    exact ⟨fun _ _ i src b => (readDsts_isSome_iff i src line b).mpr h,
      fun _ i c => (CountBatched.countDsts_isSome_iff i line c).mpr h⟩

theorem programsEnd_iff :
    ProgramsEnd input ↔ ∀ line ∈ input.splitOn '\n', line ≠ [] → Numerals line := by
  constructor
  · rintro ⟨-, hcount⟩
    exact (CountBatched.main_isSome_iff (fun _ _ => 0) input).mp (hcount _)
  · intro h
    refine ⟨fun hashOrder numVertices junk => ?_, fun junk => ?_⟩
    · rw [main_isSome_iff]
      exact fun line hline hne => Or.inl (h line hline hne)
    · exact (CountBatched.main_isSome_iff junk input).mpr h

/-- The loops end on the lines of numerals, and the programs on the files of such lines. A line that a
debug build passes over need not be one. -/
theorem readers_end_iff (line input : List Char) : (LoopsEnd line ↔ Numerals line) ∧
    (ProgramsEnd input ↔ ∀ line ∈ input.splitOn '\n', line ≠ [] → Numerals line) ∧
    ∀ hashOrder numVertices junk,
      (∃ fuel, (main hashOrder numVertices junk fuel input).isSome) ↔
        ∀ line ∈ input.splitOn '\n', line ≠ [] → Numerals line ∨ BadSource numVertices line :=
  ⟨loopsEnd_iff, programsEnd_iff, fun hashOrder numVertices junk =>
    main_isSome_iff hashOrder numVertices junk input⟩

/-- A destination that is a word. -/
theorem not_numerals_word : ¬ Numerals ['1', ' ', 'x'] := by
  intro h
  have hsome : (untilEof (fun _ _ => ()) (fun _ => 0) 4 0 (ofText ['1', ' ', 'x']) ()).isSome :=
    untilEof_isSome h 4 0 () (by decide)
  exact absurd hsome (by decide)

/-- Neither the loops nor the programs end on a line with a word. -/
theorem readers_word : ¬ LoopsEnd ['1', ' ', 'x'] ∧ ¬ ProgramsEnd ['1', ' ', 'x', '\n'] := by
  refine ⟨fun h => not_numerals_word (loopsEnd_iff.mp h), fun h => ?_⟩
  have hline : ['1', ' ', 'x'] ∈ ['1', ' ', 'x', '\n'].splitOn '\n' := by
    rw [show ['1', ' ', 'x', '\n'] = ['1', ' ', 'x'] ++ '\n' :: [] by rfl,
      List.splitOn_append_cons_self_of_not_mem (by decide)]
    exact List.mem_cons_self
  exact not_numerals_word (programsEnd_iff.mp h _ hline (by decide))

end Ends

end Microbench.WorkloadReaders
