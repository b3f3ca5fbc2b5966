import GraphLogSketch.Library.BatchedLines
import GraphLogSketch.Library.NumberLines
import GraphLogSketch.Microbench.EditScalability

/-! The edit scalability benchmark on any input. A variable that an extraction leaves as it was holds an
arbitrary value, and the loop over a line need not end: it is given a number of turns, and `none` is
that it has not ended by then. -/
namespace Microbench.EditInput
open TextStreams TextStreams.InputStream EditScalability
open Scripts.DivideIntoBatches (Edge)

/-- The values of variables that nothing was stored in, by the line and the extraction. -/
abbrev Junk := ℕ → ℕ → UInt64

/-- The insertions of a batch in the order in which they are made, and the count of edges. -/
structure Insertions where
  insertions : List Edge
  numEdges : UInt64
  deriving DecidableEq, Repr

def Insertions.empty : Insertions := ⟨[], 0⟩

/-- A turn of the loop over destinations; one that is out of range is passed over. -/
def insertDst (numVertices : Option UInt64) (src tmp : UInt64) (b : Insertions) : Insertions :=
  if validateVertex numVertices tmp then ⟨b.insertions ++ [(src, tmp)], b.numEdges + 1⟩ else b

/-- `while (!batch.eof())` -/
def readDsts (numVertices : Option UInt64) (junk : Junk) (fuel i : ℕ) (src : UInt64)
    (batch : InputStream) (b : Insertions) : Option Insertions :=
  untilEof (insertDst numVertices src) (fun turn => junk i (turn + 1)) fuel 0 batch b

/-- The batches that have been read, and the insertions of the one that is being read. -/
structure Reading where
  batches : List Insertions
  current : Insertions
  deriving DecidableEq, Repr

/-- A line that is not empty. A source that is out of range breaks the loop over the lines. -/
def readLine (numVertices : Option UInt64) (junk : Junk) (fuel i : ℕ) (batchRaw : List Char)
    (r : Reading) : Option (Bool × Reading) :=
  let batch := ofText batchRaw
  let src := batch.extract.1.getD (junk i 0)
  if ¬ validateVertex numVertices src then some (false, r)
  else (readDsts numVertices junk fuel i src batch.extract.2 r.current).map fun b =>
    (true, { r with current := b })

def endBatch (r : Reading) : Reading := ⟨r.batches ++ [r.current], .empty⟩

def readBatches (numVertices : Option UInt64) (junk : Junk) (fuel : ℕ) (input : List Char) :
    Option (List Insertions) :=
  (forBatches (readLine numVertices junk fuel) endBatch 0 (ofText input) ⟨[], .empty⟩).map
    Reading.batches

def main (hashOrder : List (UInt64 × List UInt64) → List (UInt64 × List UInt64))
    (numVertices : Option UInt64) (junk : Junk) (fuel : ℕ) (input : List Char) :
    Option (List Event) :=
  (readBatches numVertices junk fuel input).map fun batches =>
    batches.flatMap fun b => batchEvents hashOrder b.insertions

section Ends
variable {numVertices : Option UInt64} {junk : Junk}

theorem readDsts_isSome_iff (i : ℕ) (src : UInt64) (line : List Char) (b : Insertions) :
    (∃ fuel, (readDsts numVertices junk fuel i src (ofText line).extract.2 b).isSome) ↔
      Numerals line := untilEof_isSome_iff line b

/-- A source that is stored and out of range. -/
def BadSource (numVertices : Option UInt64) (line : List Char) : Prop :=
  ∃ src, (ofText line).extract.1 = some src ∧ validateVertex numVertices src = false

/-- A line without numbers stores no source, and its end is noticed at once. -/
theorem numerals_of_extract_none {line : List Char} (h : (ofText line).extract.1 = none) :
    Numerals line := by
  obtain ⟨spaces, sign, ds, rest, rfl, hspaces, hsign, hds, hrest, hstop⟩ := exists_split line
  by_cases hnil : sign ++ (ds ++ rest) = []
  · rw [hnil, List.append_nil]
    exact numerals_spaces hspaces
  · rw [extract_sign hspaces hsign hnil hstop] at h
    unfold readDigits at h
    dsimp only at h
    split_ifs at h

theorem of_readLine_isSome {fuel i : ℕ} {line : List Char} {r : Reading}
    (h : (readLine numVertices junk fuel i line r).isSome) :
    Numerals line ∨ BadSource numVertices line := by
  unfold readLine at h
  dsimp only at h
  split_ifs at h with hvalid
  · rw [Option.isSome_map] at h
    exact Or.inl (numerals_of_rest _ _ _ h)
  · cases hsrc : (ofText line).extract.1 with
    | none => exact Or.inl (numerals_of_extract_none hsrc)
    | some src =>
      rw [hsrc] at hvalid
      exact Or.inr ⟨src, hsrc, by simpa using hvalid⟩

theorem readLine_isSome {fuel : ℕ} {line : List Char} (hfuel : line.length ≤ fuel)
    (h : Numerals line ∨ BadSource numVertices line) (i : ℕ) (r : Reading) :
    (readLine numVertices junk fuel i line r).isSome := by
  unfold readLine
  dsimp only
  split_ifs with hvalid
  · rw [Option.isSome_map]
    rcases h with h | ⟨src, hsrc, hbad⟩
    · exact untilEof_rest_isSome h _ _ hfuel
    · rw [hsrc, Option.getD_some, hbad] at hvalid
      contradiction
  · rfl

/-- The benchmark ends when it has no line whose loop does not end. -/
theorem main_isSome_iff (hashOrder : List (UInt64 × List UInt64) → List (UInt64 × List UInt64))
    (numVertices : Option UInt64) (junk : Junk) (input : List Char) :
    (∃ fuel, (main hashOrder numVertices junk fuel input).isSome) ↔
      ∀ line ∈ input.splitOn '\n', line ≠ [] → Numerals line ∨ BadSource numVertices line := by
  simp only [main, readBatches, Option.isSome_map]
  refine forBatches_isSome_iff (fun fuel i line r h => ?_) (fun fuel line hfuel h => ?_) input _
  · exact of_readLine_isSome h
  · exact readLine_isSome hfuel h

end Ends

end Microbench.EditInput
