import GraphLogSketch.Scripts.HostLoads
import GraphLogSketch.Scripts.IncompleteRecords

/-! The converters on a destination that exists already. It is opened without being cut off, so what a
converter writes covers the start of the old file, and the rest of this stays behind it. -/
namespace GraphConvert
open ByteWords PositionalWrites TextStreams AtomicAdds

/-- `os.OpenFile` with `O_CREATE` and `O_WRONLY`, and not with `O_TRUNC`. -/
def openDst (prior : Option (List UInt8)) : List UInt8 := prior.getD []

def asciiBytes (text : List Char) : List UInt8 := text.map fun c => UInt8.ofNat c.toNat

/-- `fmt.Fprintln` of one number after the other. -/
def printLines (ns : List UInt64) (outputFile : List UInt8) : List UInt8 :=
  apply (sequential (ns.map fun n => asciiBytes (digits n ++ ['\n'])) 0) outputFile

def bel2vdlConvertOnto (arrive : List (UInt64 × UInt64) → List (UInt64 × UInt64))
    (inputFile : List UInt8) (vhosts routines : UInt64) (outputFile : List UInt8) :
    Option (List UInt8) := do
  let vhostDist ← vhostDist arrive inputFile vhosts routines
  return printLines vhostDist outputFile

def vdl2hdlConvertOnto (sorts : SliceSorts) (inputFile : List Char) (vhosts hosts : UInt64)
    (outputFile : List UInt8) : Option (List UInt8) := do
  let hostDist ← hostLoads sorts inputFile vhosts hosts
  return printLines hostDist outputFile

/-- The loop of `sbel2dstConvert` over the edges from number `i` on, with `n` to go. -/
def queueDsts (srcFile : List UInt8) : ℕ → UInt64 → Option (List U64WriteRecord)
  | 0, _ => some []
  | n + 1, i => do
    let tempDst ← readU64At srcFile (i * 2 * sizeofu64 + sizeofu64)
    let rest ← queueDsts srcFile n (i + 1)
    return ⟨2 * sizeofu64 + i * sizeofu64, tempDst⟩ :: rest

/-- The records `sbel2dstConvert` queues: the number of edges, a placeholder, and the destinations. -/
def sbel2dstRecords (srcFile : List UInt8) : Option (List U64WriteRecord) := do
  let sz := UInt64.ofNat srcFile.length
  let sz := sz - sz % sizeofu64
  let numEdges := sz / (2 * sizeofu64)
  let dsts ← queueDsts srcFile numEdges.toNat 0
  return ⟨0, numEdges⟩ :: ⟨sizeofu64, 0⟩ :: dsts

def sbel2dstConvertOnto (reorder : List U64WriteRecord → List U64WriteRecord)
    (srcFile dstFile : List UInt8) : Option (List UInt8) := do
  drain (reorder (← sbel2dstRecords srcFile)) dstFile

/-- What goroutines and sorts leave open in a run. -/
structure Schedule where
  reorder : List U64WriteRecord → List U64WriteRecord
  arrive : List (UInt64 × UInt64) → List (UInt64 × UInt64)
  sorts : SliceSorts
  reorder_perm : ∀ rs, (reorder rs).Perm rs
  arrive_perm : ∀ adds, (arrive adds).Perm adds

/-- A conversion with its source file and the flags it looks at. -/
inductive Job
  | el2bel (srcFile : List Char) (comma comment : Char)
  | bel2bdf (srcFile : List UInt8) (numNodes : UInt64)
  | bel2vdl (srcFile : List UInt8) (numVhosts : UInt64)
  | vdl2hdl (srcFile : List Char) (numVhosts numHosts : UInt64)
  | sbel2dst (srcFile : List UInt8)

/-- What the destination holds in the end. -/
def main (schedule : Schedule) (routines : UInt64) (prior : Option (List UInt8)) :
    Job → Option (List UInt8)
  | .el2bel srcFile comma comment =>
    (el2belConvertOnto schedule.reorder comma comment srcFile (openDst prior)).map Prod.fst
  | .bel2bdf srcFile numNodes =>
    bel2bdfConvertOnto schedule.reorder routines srcFile numNodes (openDst prior)
  | .bel2vdl srcFile numVhosts =>
    bel2vdlConvertOnto schedule.arrive srcFile numVhosts routines (openDst prior)
  | .vdl2hdl srcFile numVhosts numHosts =>
    vdl2hdlConvertOnto schedule.sorts srcFile numVhosts numHosts (openDst prior)
  | .sbel2dst srcFile => sbel2dstConvertOnto schedule.reorder srcFile (openDst prior)

section Printed

end Printed

section Destinations
variable {srcFile : List UInt8}

end Destinations

section Refused
variable {reorder : List U64WriteRecord → List U64WriteRecord}

end Refused

def oneEdge : Job := .el2bel (edgesText ',' '#' [.edge 1 2]) ',' '#'

end GraphConvert
