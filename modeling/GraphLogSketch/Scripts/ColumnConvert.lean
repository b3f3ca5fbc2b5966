import GraphLogSketch.Scripts.EdgeListConvert

/-! Sorted binary edge lists turned into the index of a column file: the number of records up to each
vertex. -/
namespace GraphConvert
open ByteWords PositionalWrites

def vertexBase : UInt64 := 2 * sizeofu64

/-- The loop over the records from number `i` on, with `n` to go. It never changes `lastSrc`. -/
def writeColumns (srcFile : List UInt8) (lastSrc : UInt64) :
    ℕ → UInt64 → UInt64 → Option (List U64WriteRecord)
  | 0, _, _ => some []
  | n + 1, i, count => do
    let tempSrc ← readU64At srcFile (i * 2 * sizeofu64)
    let records := (List.range' lastSrc.toNat (tempSrc.toNat - lastSrc.toNat)).map fun j =>
      ⟨vertexBase + UInt64.ofNat j * sizeofu64, count⟩
    let rest ← writeColumns srcFile lastSrc n (i + 1) (count + 1)
    return records ++ rest

/-- The records `sbel2colConvert` queues. -/
def sbel2colRecords (srcFile : List UInt8) (numVerts : UInt64) : Option (List U64WriteRecord) := do
  let sz := UInt64.ofNat srcFile.length
  let sz := sz - sz % sizeofu64
  let numEdges := sz / (2 * sizeofu64)
  let columns ← writeColumns srcFile 0 numEdges.toNat 0 0
  return ⟨0, numVerts⟩ :: ⟨sizeofu64, 0⟩ :: columns

/-- The converter on an initially empty output file. -/
def sbel2colConvert (reorder : List U64WriteRecord → List U64WriteRecord) (srcFile : List UInt8)
    (numVerts : UInt64) : Option (List UInt8) := do
  drain (reorder (← sbel2colRecords srcFile numVerts)) []

/-- The number of vertices, a placeholder, and for each vertex the number of records up to it. -/
def colWords (es : List (UInt64 × UInt64)) (numVerts : UInt64) : List UInt64 :=
  [numVerts, 0] ++ (List.range numVerts.toNat).map fun v => UInt64.ofNat (indexOf es v)

/-- The words are written, and no position gets two values. -/
structure WritesColumn (reorder : List U64WriteRecord → List U64WriteRecord)
    (es : List (UInt64 × UInt64)) (numVerts : UInt64) : Prop where
  file : sbel2colConvert reorder (edgeList es) numVerts = some (encodeWords (colWords es numVerts))
  single : ∀ rs, sbel2colRecords (edgeList es) numVerts = some rs →
    ∀ r ∈ rs, ∀ r' ∈ rs, r.pos = r'.pos → r.val = r'.val

section Columns
variable {es : List (UInt64 × UInt64)} {numVerts : UInt64} {rs : List U64WriteRecord}

/-- The number of a record is written for every vertex below its source. -/
def columnRecords (es : List (UInt64 × UInt64)) (i : ℕ) : List U64WriteRecord :=
  (es.zipIdx i).flatMap fun p => (List.range p.1.1.toNat).map fun j =>
    ⟨vertexBase + UInt64.ofNat j * sizeofu64, UInt64.ofNat p.2⟩

theorem writeColumns_eq (hsize : 16 * es.length < 2 ^ 63) (n i : ℕ) (hn : i + n = es.length) :
    writeColumns (edgeList es) 0 n (UInt64.ofNat i) (UInt64.ofNat i) =
      some (columnRecords (es.drop i) i) := by
  induction n generalizing i with
  | zero =>
    rw [List.drop_of_length_le (by omega)]
    rfl
  | succ n ih =>
    have hi : i < es.length := by omega
    have hnext : UInt64.ofNat i + 1 = UInt64.ofNat (i + 1) := by simp
    have hrecords : columnRecords (es.drop i) i = ((List.range' 0 es[i].1.toNat).map fun j =>
        ⟨vertexBase + UInt64.ofNat j * sizeofu64, UInt64.ofNat i⟩) ++
          columnRecords (es.drop (i + 1)) (i + 1) := by
      rw [List.drop_eq_getElem_cons hi, columnRecords, List.zipIdx_cons, List.flatMap_cons,
        List.range_eq_range']
      rfl
    rw [writeColumns, readU64At_source hsize hi, hnext, ih (i + 1) (by omega), hrecords]
    rfl

theorem sbel2colRecords_eq (hsize : 16 * es.length < 2 ^ 63) :
    sbel2colRecords (edgeList es) numVerts =
      some (⟨0, numVerts⟩ :: ⟨8, 0⟩ :: columnRecords es 0) := by
  have hloop : writeColumns (edgeList es) 0 es.length 0 0 = _ :=
    writeColumns_eq hsize es.length 0 (Nat.zero_add _)
  have hnat : (UInt64.ofNat es.length).toNat = es.length :=
    UInt64.toNat_ofNat_of_lt' (by show es.length < 2 ^ 64; omega)
  unfold sbel2colRecords
  dsimp only
  rw [edgeList_length, edgeListSize_whole hsize, edgeListSize_div hsize, hnat, hloop]
  rfl

/-- The last vertex gets no word. -/
theorem columnRecords_stop_le (hsrc : ∀ e ∈ es, e.1 < numVerts) {r : U64WriteRecord}
    (hr : r ∈ columnRecords es 0) : r.write.stop ≤ 8 * (numVerts.toNat + 1) := by
  obtain ⟨⟨e, i⟩, hp, hr⟩ := List.mem_flatMap.mp hr
  obtain ⟨j, hj, rfl⟩ := List.mem_map.mp hr
  have hlt := UInt64.lt_iff_toNat_lt.mp (hsrc e (List.fst_mem_of_mem_zipIdx hp))
  have hj : j < e.1.toNat := List.mem_range.mp hj
  have hpos : (vertexBase + UInt64.ofNat j * sizeofu64).toNat ≤ 16 + 8 * j := by
    rw [UInt64.toNat_add, UInt64.toNat_mul, UInt64.toNat_ofNat_of_lt' (hj.trans e.1.toNat_lt)]
    show (16 + j * 8 % 2 ^ 64) % 2 ^ 64 ≤ _
    omega
  rw [U64WriteRecord.write, wordWrite_stop]
  show (vertexBase + UInt64.ofNat j * sizeofu64).toNat + 8 ≤ _
  omega

/-- So the file is shorter than the index. -/
theorem sbel2colConvert_length_le {reorder : List U64WriteRecord → List U64WriteRecord}
    (hperm : ∀ rs, (reorder rs).Perm rs) (hsrc : ∀ e ∈ es, e.1 < numVerts)
    (hsize : 16 * es.length < 2 ^ 63) (hverts : 0 < numVerts.toNat) {file : List UInt8}
    (h : sbel2colConvert reorder (edgeList es) numVerts = some file) :
    file.length ≤ 8 * (numVerts.toNat + 1) := by
  rw [sbel2colConvert, sbel2colRecords_eq hsize] at h
  obtain ⟨-, rfl⟩ := drain_eq h
  apply apply_length_le (Nat.zero_le _)
  intro w hw
  obtain ⟨r, hr, rfl⟩ := List.mem_map.mp hw
  rcases List.mem_cons.mp ((hperm _).mem_iff.mp hr) with rfl | hr
  · rw [U64WriteRecord.write, wordWrite_stop]
    exact Nat.mul_le_mul_left 8 (Nat.le_add_left 1 _)
  rcases List.mem_cons.mp hr with rfl | hr
  · rw [U64WriteRecord.write, wordWrite_stop]
    exact Nat.mul_le_mul_left 8 (show 2 ≤ numVerts.toNat + 1 by omega)
  · exact columnRecords_stop_le hsrc hr

/-- Without vertices there are no edges, and the header is all there is to write. -/
theorem writesColumn_nil {reorder : List U64WriteRecord → List U64WriteRecord}
    (hperm : ∀ rs, (reorder rs).Perm rs) : WritesColumn reorder [] 0 := by
  have hrecords : sbel2colRecords (edgeList []) 0 = _ := sbel2colRecords_eq (by decide)
  have hheader : [(⟨0, 0⟩ : U64WriteRecord), ⟨8, 0⟩].map U64WriteRecord.write =
      wordWrites (colWords [] 0) 0 := rfl
  have hpos : ∀ r ∈ reorder [⟨0, 0⟩, ⟨8, 0⟩], r.pos.toNat < 2 ^ 63 := by
    intro r hr
    have hr := (hperm _).mem_iff.mp hr
    simp only [List.mem_cons, List.not_mem_nil, or_false] at hr
    rcases hr with rfl | rfl
    all_goals decide
  constructor
  · rw [sbel2colConvert, hrecords]
    refine (drain_some [] hpos).trans (congrArg some ?_)
    exact apply_wordWrites (hheader ▸ (hperm _).map _)
  · intro rs hrs r hr r' hr' hpos
    rw [hrecords] at hrs
    obtain rfl := Option.some.inj hrs
    simp only [columnRecords, List.zipIdx_nil, List.flatMap_nil, List.mem_cons,
      List.not_mem_nil, or_false] at hr hr'
    rcases hr with rfl | rfl <;> rcases hr' with rfl | rfl
    all_goals rfl

end Columns

/-- The index is never complete: as soon as there is a vertex, the word of the last one is missing. -/
theorem sbel2colConvert_iff (reorder : List U64WriteRecord → List U64WriteRecord)
    (hperm : ∀ rs, (reorder rs).Perm rs) (es : List (UInt64 × UInt64)) (numVerts : UInt64)
    (hsrc : ∀ e ∈ es, e.1 < numVerts) (hsize : 16 * es.length < 2 ^ 63) :
    WritesColumn reorder es numVerts ↔ numVerts = 0 := by
  constructor
  · intro h
    by_contra hne
    have hpos : 0 < numVerts.toNat :=
      Nat.pos_of_ne_zero fun hzero => hne (UInt64.toNat_inj.mp hzero)
    have hle := sbel2colConvert_length_le hperm hsrc hsize hpos h.file
    simp only [encodeWords_length, colWords, List.length_append, List.length_cons, List.length_nil,
      List.length_map, List.length_range] at hle
    omega
  · rintro rfl
    have hes : es = [] := List.eq_nil_iff_forall_not_mem.mpr fun e he =>
      absurd (UInt64.lt_iff_toNat_lt.mp (hsrc e he)) (Nat.not_lt_zero _)
    rw [hes]
    exact writesColumn_nil hperm

/-- Two edges from node 1: the word of node 0 gets two values, and node 1 gets no word. -/
theorem sbel2colConvert_twoEdges :
    colWords [(1, 0), (1, 1)] 2 = [2, 0, 0, 2] ∧
      sbel2colConvert id (edgeList [(1, 0), (1, 1)]) 2 = some (encodeWords [2, 0, 1]) ∧
      sbel2colConvert List.reverse (edgeList [(1, 0), (1, 1)]) 2 = some (encodeWords [2, 0, 0]) ∧
      ¬ WritesColumn id [(1, 0), (1, 1)] 2 := by
  refine ⟨by decide, by decide, by decide, fun h => ?_⟩
  exact absurd h.file (by decide)

theorem sbel2colConvert_iff_two : ¬ WritesColumn List.reverse [(0, 7), (1, 3)] 2 := fun h =>
  absurd ((sbel2colConvert_iff List.reverse List.reverse_perm [(0, 7), (1, 3)] 2 (by simp)
    (by decide)).mp h) (by decide)

end GraphConvert
