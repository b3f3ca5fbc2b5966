import GraphLogSketch.Library.TextStreams
import GraphLogSketch.Library.Tiling

/-! Workload files, in which a line inserts edges of one source and a blank line is a point where the
algorithm is executed, and the division of an edge list into batches: ranges of one size, the edges of a
range sorted and written as a batch of a workload. `none` is undefined behaviour. -/
namespace Microbench.Workload
open TextStreams

inductive Line where
  | execute
  | insert (src : UInt64) (dsts : List UInt64)
  deriving DecidableEq, Repr

def dstsText (dsts : List UInt64) : List Char := dsts.flatMap fun dst => ' ' :: digits dst

def Line.text : Line → List Char
  | .execute => []
  | .insert src dsts => digits src ++ dstsText dsts

def Line.edges : Line → List (UInt64 × UInt64)
  | .execute => []
  | .insert src dsts => dsts.map fun dst => (src, dst)

def text (w : List Line) : List Char := w.flatMap fun line => line.text ++ ['\n']

def edges (w : List Line) : List (UInt64 × UInt64) := w.flatMap Line.edges

@[simp] theorem text_cons (line : Line) (w : List Line) :
    text (line :: w) = line.text ++ '\n' :: text w := by
  simp [text]

@[simp] theorem text_append (w w' : List Line) : text (w ++ w') = text w ++ text w' :=
  List.flatMap_append

@[simp] theorem edges_append (w w' : List Line) : edges (w ++ w') = edges w ++ edges w' :=
  List.flatMap_append

/-- A number in front of destinations ends there. -/
theorem dstsText_head (dsts : List UInt64) : ∀ c ∈ (dstsText dsts).head?, c.isDigit = false := by
  cases dsts with
  | nil => simp [dstsText]
  | cons dst dsts => simp [dstsText]

theorem newline_notMem_text (line : Line) : '\n' ∉ line.text := by
  have hdigits (n : UInt64) : '\n' ∉ digits n := fun h => absurd (isDigit_of_mem_digits h) (by decide)
  cases line with
  | execute => exact List.not_mem_nil
  | insert src dsts => simp [Line.text, dstsText, hdigits]

theorem text_insert_ne_nil (src : UInt64) (dsts : List UInt64) :
    (Line.insert src dsts).text ≠ [] :=
  List.append_ne_nil_of_left_ne_nil (digits_ne_nil src) _

end Microbench.Workload

namespace Scripts.DivideIntoBatches
open TextStreams Tiling Microbench Microbench.Workload

abbrev Edge := UInt64 × UInt64

theorem peek_good {fin : InputStream} (h : fin.peek.1 = some '#') :
    fin.peek.2.good = true ∧ fin.peek.2.rest ≠ [] ∧ fin.peek.2.rest = fin.rest := by
  unfold InputStream.peek at h ⊢
  split_ifs at h ⊢ with hgood
  have hrest : fin.rest ≠ [] := by
    intro hnil
    rw [hnil] at h
    contradiction
  obtain ⟨heof, hfail⟩ : fin.eof = false ∧ fin.fail = false := by
    simpa [InputStream.good] using hgood
  refine ⟨?_, hrest, rfl⟩
  simp [InputStream.good, hfail, hrest]

/-- Comments are skipped at the front of the file only. -/
def skipComments (fin : InputStream) : InputStream :=
  if _ : fin.peek.1 = some '#' then skipComments fin.peek.2.ignoreLine else fin.peek.2
termination_by fin.rest.length
decreasing_by
  rename_i h
  obtain ⟨hgood, hne, hrest⟩ := peek_good h
  exact hrest ▸ InputStream.ignoreLine_length_lt hgood hne

/-- `while (fin >> src >> dst)` -/
def readPairs (fin : InputStream) : List Edge :=
  let src := fin.extract
  let dst := src.2.extract
  if _ : dst.2.fail = false then (src.1.getD 0, dst.1.getD 0) :: readPairs dst.2 else []
termination_by fin.rest.length
decreasing_by
  rename_i h
  exact (InputStream.extract_length_lt h).trans
    (InputStream.extract_length_lt (InputStream.not_fail_of_extract h))

def readEdges (input : List Char) : List Edge := readPairs (skipComments (.ofText input))

/-- The order of pairs. -/
def edgeLe (a b : Edge) : Bool := a.1 < b.1 || (a.1 = b.1 && a.2 ≤ b.2)

/-- `std::sort` of the edges from `first` up to `last`. -/
def sortRange (edges : List Edge) (first last : ℕ) : List Edge :=
  edges.take first ++ ((edges.drop first).take (last - first)).mergeSort edgeLe ++ edges.drop last

/-- The lines of a batch, but for the end of the last one. -/
def writeEdges : Option UInt64 → List Edge → List Char
  | _, [] => []
  | prevSrc, (nextSrc, nextDst) :: es =>
    if prevSrc ≠ some nextSrc then
      (if prevSrc.isSome then ['\n'] else []) ++
        (digits nextSrc ++ ' ' :: digits nextDst ++ writeEdges (some nextSrc) es)
    else ' ' :: digits nextDst ++ writeEdges prevSrc es

def edgesPerBatch (numEdges numBatches : UInt64) : UInt64 :=
  (numEdges + (numBatches - 1)) / numBatches

/-- Where a batch begins and ends. -/
def batchRange (numEdges numBatches batchIdx : UInt64) : UInt64 × UInt64 :=
  (batchIdx * edgesPerBatch numEdges numBatches,
    min numEdges ((batchIdx + 1) * edgesPerBatch numEdges numBatches))

/-- The loop over the batches from `batchIdx` on. From a `begin` behind its `end`, `it != end` runs
out of the vector. -/
def writeBatches (numEdges numBatches : UInt64) : ℕ → UInt64 → List Edge → Option (List Char)
  | 0, _, _ => some []
  | k + 1, batchIdx, edges =>
    let first := (batchRange numEdges numBatches batchIdx).1.toNat
    let last := (batchRange numEdges numBatches batchIdx).2.toNat
    if first ≤ last ∧ last ≤ edges.length then
      let edges := sortRange edges first last
      (writeBatches numEdges numBatches k (batchIdx + 1) edges).map fun fout =>
        writeEdges none ((edges.drop first).take (last - first)) ++ '\n' :: '\n' :: fout
    else none

/-- What is written. The largest element of no edges is undefined, and with 0 batches the program
returns before it writes anything. -/
def main (randomShuffle : Option (List Edge → List Edge)) (input : List Char) (numBatches : UInt64) :
    Option (List Char) :=
  let edges := readEdges input
  if edges = [] then none
  else
    let edges := (randomShuffle.getD id) edges
    if numBatches = 0 then some []
    else writeBatches (UInt64.ofNat edges.length) numBatches numBatches.toNat 0 edges

/-- An edge list as text. -/
def edgesText (es : List Edge) : List Char :=
  es.flatMap fun e => digits e.1 ++ ' ' :: digits e.2 ++ ['\n']

theorem digits_head (n : UInt64) (rest : List Char) :
    ∃ c cs, digits n ++ rest = c :: cs ∧ c.isDigit = true := by
  obtain ⟨c, cs, hcs⟩ := List.exists_cons_of_ne_nil (digits_ne_nil n)
  refine ⟨c, cs ++ rest, by rw [hcs, List.cons_append], ?_⟩
  exact isDigit_of_mem_digits (n := n) (by rw [hcs]; exact List.mem_cons_self)

theorem extract_pair (spaces : List Char) (hspaces : ∀ c ∈ spaces, isSpace c = true) (e : Edge)
    (rest : List Char) :
    (InputStream.ofText (spaces ++ (digits e.1 ++ (' ' :: (digits e.2 ++ '\n' :: rest))))).extract =
        (some e.1, .ofText (' ' :: (digits e.2 ++ '\n' :: rest))) ∧
      (InputStream.ofText (' ' :: (digits e.2 ++ '\n' :: rest))).extract =
        (some e.2, .ofText ('\n' :: rest)) :=
  ⟨InputStream.extract_digits e.1 spaces _ hspaces (by simp),
    InputStream.extract_digits e.2 [' '] _ (by simp; decide) (by simp)⟩

theorem readPairs_edgesText (spaces : List Char) (hspaces : ∀ c ∈ spaces, isSpace c = true)
    (es : List Edge) : readPairs (.ofText (spaces ++ edgesText es)) = es := by
  induction es generalizing spaces with
  | nil =>
    have hfirst := InputStream.extract_spaces (spaces ++ edgesText [])
      (by simpa [edgesText] using hspaces)
    rw [readPairs, hfirst]
    exact dif_neg (by decide)
  | cons e es ih =>
    obtain ⟨hsrc, hdst⟩ := extract_pair spaces hspaces e (edgesText es)
    have htext : edgesText (e :: es) =
        digits e.1 ++ (' ' :: (digits e.2 ++ '\n' :: edgesText es)) := by
      simp [edgesText]
    have hrest := ih ['\n'] (by simp; decide)
    rw [htext, readPairs, hsrc]
    dsimp only
    rw [hdst]
    exact (dif_pos rfl).trans (congrArg _ hrest)

/-- The program reads an edge list that is written as text. -/
theorem readEdges_edgesText (es : List Edge) : readEdges (edgesText es) = es := by
  have hread := readPairs_edgesText [] (by simp) es
  rw [List.nil_append] at hread
  cases es with
  | nil =>
    unfold readEdges
    rw [skipComments, readPairs]
    rfl
  | cons e es =>
    obtain ⟨c, cs, hcs, hdigit⟩ := digits_head e.1 (' ' :: digits e.2 ++ ['\n'] ++ edgesText es)
    have htext : edgesText (e :: es) = c :: cs := by
      rw [← hcs]
      simp [edgesText]
    have hcomment : some c ≠ some '#' := by
      rintro h
      rw [Option.some.inj h] at hdigit
      exact absurd hdigit (by decide)
    rw [htext] at hread ⊢
    unfold readEdges
    rw [skipComments]
    exact (congrArg readPairs (dif_neg hcomment)).trans hread

section Lines

/-- The lines from a source on, some of whose destinations are known. -/
def linesFrom (src : UInt64) (dsts : List UInt64) : List Edge → List Line
  | [] => [.insert src dsts]
  | e :: es =>
    if e.1 = src then linesFrom src (dsts ++ [e.2]) es
    else .insert src dsts :: linesFrom e.1 [e.2] es

/-- The lines of a batch: one for each run of a source, and an execution point. Without edges there is
no line to end, which makes two. -/
def batchLines : List Edge → List Line
  | [] => [.execute, .execute]
  | e :: es => linesFrom e.1 [e.2] es ++ [.execute]

theorem writeEdges_linesFrom (src : UInt64) (dsts : List UInt64) (es : List Edge) :
    (Line.insert src dsts).text ++ (writeEdges (some src) es ++ ['\n']) =
      text (linesFrom src dsts es) := by
  induction es generalizing src dsts with
  | nil => simp [linesFrom, writeEdges, text]
  | cons e es ih =>
    by_cases hsrc : e.1 = src
    · subst hsrc
      have hsame : ¬ some e.1 ≠ some e.1 := not_not.mpr rfl
      rw [linesFrom, if_pos rfl, ← ih, writeEdges, if_neg hsame]
      simp [Line.text, dstsText]
    · have hnext : some src ≠ some e.1 := fun h => hsrc (Option.some.inj h).symm
      rw [linesFrom, if_neg hsrc, text_cons, ← ih, writeEdges, if_pos hnext]
      simp [Line.text, dstsText]

theorem writeEdges_batchLines (es : List Edge) (w : List Line) :
    writeEdges none es ++ '\n' :: '\n' :: text w = text (batchLines es ++ w) := by
  rw [text_append]
  cases es with
  | nil => rfl
  | cons e es =>
    have hnext : none ≠ some e.1 := Option.some_ne_none _ |>.symm
    rw [batchLines, text_append, ← writeEdges_linesFrom, writeEdges, if_pos hnext]
    simp [Line.text, dstsText, text]

theorem edges_linesFrom (src : UInt64) (dsts : List UInt64) (es : List Edge) :
    edges (linesFrom src dsts es) = dsts.map (fun dst => (src, dst)) ++ es := by
  induction es generalizing src dsts with
  | nil => simp [linesFrom, edges, Line.edges]
  | cons e es ih =>
    rw [linesFrom]
    split_ifs with hsrc
    · rw [ih, ← hsrc]
      simp
    · show (Line.insert src dsts).edges ++ edges (linesFrom e.1 [e.2] es) = _
      rw [ih]
      rfl

theorem edges_batchLines (es : List Edge) : edges (batchLines es) = es := by
  cases es with
  | nil => rfl
  | cons e es =>
    rw [batchLines, edges_append, edges_linesFrom]
    simp [edges, Line.edges]

theorem execute_mem_batchLines (es : List Edge) : .execute ∈ batchLines es := by
  cases es with
  | nil => exact List.mem_cons_self
  | cons e es => exact List.mem_append_right _ (List.mem_singleton_self _)

end Lines

section Ranges
variable {numEdges numBatches : UInt64} {i : ℕ}

/-- The batches up to the last take no more than there is. -/
def Fits (n b : ℕ) : Prop := n + (b - 1) < 2 ^ 64 ∧ (b - 1) * blockSize n b ≤ n

instance (n b : ℕ) : Decidable (Fits n b) := inferInstanceAs (Decidable (_ ∧ _))

theorem edgesPerBatch_toNat (hb : 0 < numBatches.toNat) :
    (edgesPerBatch numEdges numBatches).toNat =
      (numEdges.toNat + (numBatches.toNat - 1)) % 2 ^ 64 / numBatches.toNat := by
  have hone : (numBatches - 1).toNat = numBatches.toNat - 1 :=
    UInt64.toNat_sub_of_le _ _ (UInt64.le_iff_toNat_le.mpr hb)
  rw [edgesPerBatch, UInt64.toNat_div, UInt64.toNat_add, hone]

/-- A sum that wraps is less than the number of batches. -/
theorem edgesPerBatch_wrapped (hb : 0 < numBatches.toNat)
    (hwrap : ¬ numEdges.toNat + (numBatches.toNat - 1) < 2 ^ 64) :
    edgesPerBatch numEdges numBatches = 0 := by
  have hn := numEdges.toNat_lt
  have hlt := numBatches.toNat_lt
  rw [← UInt64.toNat_inj, edgesPerBatch_toNat hb]
  exact Nat.div_eq_of_lt (by omega)

theorem mul_blockSize_le (n b : ℕ) : b * blockSize n b ≤ n + b - 1 := Nat.mul_div_le _ _

theorem toNat_min (a b : UInt64) : (min a b).toNat = min a.toNat b.toNat := by
  show (if a ≤ b then a else b).toNat = _
  split_ifs with h
  · exact (min_eq_left (UInt64.le_iff_toNat_le.mp h)).symm
  · exact (min_eq_right (not_le.mp fun hle => h (UInt64.le_iff_toNat_le.mpr hle)).le).symm

/-- Nothing wraps in the multiples of the batch size up to the last batch. -/
theorem mul_edgesPerBatch_toNat (hb : 0 < numBatches.toNat) (hi : i ≤ numBatches.toNat)
    (hsum : numEdges.toNat + (numBatches.toNat - 1) < 2 ^ 64) :
    (UInt64.ofNat i * edgesPerBatch numEdges numBatches).toNat =
      i * blockSize numEdges.toNat numBatches.toNat := by
  have hlt := numBatches.toNat_lt
  have hall := mul_blockSize_le numEdges.toNat numBatches.toNat
  have hsize : (edgesPerBatch numEdges numBatches).toNat =
      blockSize numEdges.toNat numBatches.toNat := by
    rw [edgesPerBatch_toNat hb, Nat.mod_eq_of_lt hsum, blockSize, Nat.add_sub_assoc hb]
  have hthis : i * blockSize numEdges.toNat numBatches.toNat < 2 ^ 64 :=
    lt_of_le_of_lt (Nat.mul_le_mul_right _ hi) (by omega)
  rw [UInt64.toNat_mul, hsize, UInt64.toNat_ofNat_of_lt' (hi.trans_lt hlt), Nat.mod_eq_of_lt hthis]

/-- Nothing wraps in the bounds of a batch. -/
theorem batchRange_toNat (hi : i < numBatches.toNat)
    (hsum : numEdges.toNat + (numBatches.toNat - 1) < 2 ^ 64) :
    (batchRange numEdges numBatches (UInt64.ofNat i)).1.toNat =
        i * blockSize numEdges.toNat numBatches.toNat ∧
      (batchRange numEdges numBatches (UInt64.ofNat i)).2.toNat =
        blockStart numEdges.toNat numBatches.toNat (i + 1) := by
  have hb : 0 < numBatches.toNat := Nat.zero_lt_of_lt hi
  have hsucc : UInt64.ofNat i + 1 = UInt64.ofNat (i + 1) := by simp
  refine ⟨mul_edgesPerBatch_toNat hb hi.le hsum, ?_⟩
  show (min numEdges ((UInt64.ofNat i + 1) * edgesPerBatch numEdges numBatches)).toNat = min _ _
  rw [hsucc, toNat_min, mul_edgesPerBatch_toNat hb hi hsum]

/-- What the ranges of the batches should be. -/
structure RangesCover (numEdges numBatches : UInt64) : Prop where
  bounds : ∀ i < numBatches.toNat,
    (batchRange numEdges numBatches (UInt64.ofNat i)).1 ≤
        (batchRange numEdges numBatches (UInt64.ofNat i)).2 ∧
      (batchRange numEdges numBatches (UInt64.ofNat i)).2 ≤ numEdges
  first : (batchRange numEdges numBatches 0).1 = 0
  consecutive : ∀ i, i + 1 < numBatches.toNat →
    (batchRange numEdges numBatches (UInt64.ofNat i)).2 =
      (batchRange numEdges numBatches (UInt64.ofNat (i + 1))).1
  last : (batchRange numEdges numBatches (UInt64.ofNat (numBatches.toNat - 1))).2 = numEdges

theorem Fits.mul_le {n b : ℕ} (h : Fits n b) (hi : i < b) : i * blockSize n b ≤ n :=
  (Nat.mul_le_mul_right _ (Nat.le_pred_of_lt hi)).trans h.2

theorem Fits.batchRange_toNat (h : Fits numEdges.toNat numBatches.toNat)
    (hi : i < numBatches.toNat) :
    (batchRange numEdges numBatches (UInt64.ofNat i)).1.toNat =
        blockStart numEdges.toNat numBatches.toNat i ∧
      (batchRange numEdges numBatches (UInt64.ofNat i)).2.toNat =
        blockStart numEdges.toNat numBatches.toNat (i + 1) := by
  obtain ⟨hfirst, hlast⟩ := DivideIntoBatches.batchRange_toNat hi h.1
  exact ⟨hfirst.trans (min_eq_right (h.mul_le hi)).symm, hlast⟩

theorem rangesCover_of_fits (h : Fits numEdges.toNat numBatches.toNat)
    (hb : 0 < numBatches.toNat) : RangesCover numEdges numBatches where
  bounds i hi := by
    obtain ⟨hfirst, hlast⟩ := h.batchRange_toNat hi
    rw [UInt64.le_iff_toNat_le, UInt64.le_iff_toNat_le, hfirst, hlast]
    exact ⟨blockStart_mono _ _ i, min_le_left _ _⟩
  first := by
    rw [← UInt64.toNat_inj]
    exact (h.batchRange_toNat (i := 0) hb).1.trans (blockStart_zero _ _)
  consecutive i hi := by
    rw [← UInt64.toNat_inj, (h.batchRange_toNat hi).1]
    exact (h.batchRange_toNat (Nat.lt_of_succ_lt hi)).2
  last := by
    rw [← UInt64.toNat_inj, (h.batchRange_toNat (Nat.sub_lt hb Nat.one_pos)).2]
    rw [Nat.sub_add_cancel hb, blockStart_all hb]

/-- With a sum that wraps no range has an edge, and else the last batch begins too late. -/
theorem RangesCover.fits (h : RangesCover numEdges numBatches) (hb : 0 < numBatches.toNat) :
    Fits numEdges.toNat numBatches.toNat := by
  have hsum : numEdges.toNat + (numBatches.toNat - 1) < 2 ^ 64 := by
    by_contra hwrap
    have hlast := congrArg UInt64.toNat h.last
    have hlt := numBatches.toNat_lt
    rw [batchRange, edgesPerBatch_wrapped hb hwrap, toNat_min] at hlast
    simp at hlast
    omega
  obtain ⟨hfirst, hlast⟩ := batchRange_toNat (Nat.sub_lt hb Nat.one_pos) hsum
  obtain ⟨hbegin, hend⟩ := h.bounds (numBatches.toNat - 1) (Nat.sub_lt hb Nat.one_pos)
  rw [UInt64.le_iff_toNat_le] at hbegin hend
  exact ⟨hsum, hfirst ▸ hbegin.trans hend⟩

end Ranges

section Written
variable {es : List Edge} {n b i j : ℕ} {numBatches : UInt64}

/-- The edges of batch `i` when there are `b` batches. -/
def batch (es : List Edge) (b i : ℕ) : List Edge :=
  (es.drop (blockStart es.length b i)).take
    (blockStart es.length b (i + 1) - blockStart es.length b i)

theorem flatMap_batch (es : List Edge) (hb : 0 < b) : (List.range b).flatMap (batch es b) = es := by
  have hslices := flatMap_slices (k := b) (blockStart es.length b) es (blockStart_zero _ _)
    fun i _ => blockStart_mono _ _ i
  rw [blockStart_all hb, List.take_length] at hslices
  exact hslices

theorem sortRange_spec (es : List Edge) {first last : ℕ} (hle : first ≤ last) (hlast : last ≤ es.length) :
    (sortRange es first last).length = es.length ∧
      ((sortRange es first last).drop first).take (last - first) =
        ((es.drop first).take (last - first)).mergeSort edgeLe ∧
      (sortRange es first last).drop last = es.drop last := by
  have hfront : (es.take first).length = first := by
    rw [List.length_take]
    omega
  have hsorted : (((es.drop first).take (last - first)).mergeSort edgeLe).length = last - first := by
    rw [List.length_mergeSort, List.length_take, List.length_drop]
    omega
  unfold sortRange
  refine ⟨?_, ?_, ?_⟩
  · rw [List.length_append, List.length_append, hfront, hsorted, List.length_drop]
    omega
  · rw [List.append_assoc, List.drop_left' hfront, List.take_left' hsorted]
  · exact List.drop_left' (by rw [List.length_append, hfront, hsorted]; omega)

/-- The list when batch `i` has been sorted. -/
def sortBatch (es : List Edge) (b i : ℕ) : List Edge :=
  sortRange es (blockStart es.length b i) (blockStart es.length b (i + 1))

/-- Sorting a batch leaves the later ones. -/
theorem batch_sortBatch {i j : ℕ} (es : List Edge) (b : ℕ) (hij : i < j) :
    batch (sortBatch es b i) b j = batch es b j := by
  have hmono : Monotone (blockStart es.length b) := monotone_nat_of_le_succ (blockStart_mono _ _)
  obtain ⟨hlen, -, hdrop⟩ := sortRange_spec es (hmono (Nat.le_succ i)) (min_le_left _ _)
  have hlater := Nat.add_sub_cancel' (hmono (Nat.succ_le_of_lt hij))
  unfold batch sortBatch
  rw [hlen, ← hlater, ← List.drop_drop, hdrop, List.drop_drop]

/-- The batches from number `i` on, each one sorted. -/
theorem writeBatches_eq {k : ℕ} (es : List Edge) (i : ℕ) (hfits : Fits es.length numBatches.toNat)
    (hlen : es.length < 2 ^ 64) (hk : i + k = numBatches.toNat) :
    writeBatches (UInt64.ofNat es.length) numBatches k (UInt64.ofNat i) es =
      some (text ((List.range' i k).flatMap fun j =>
        batchLines ((batch es numBatches.toNat j).mergeSort edgeLe))) := by
  induction k generalizing i es with
  | zero => rfl
  | succ k ih =>
    have hnat : (UInt64.ofNat es.length).toNat = es.length := UInt64.toNat_ofNat_of_lt' hlen
    have hi : i < numBatches.toNat := by omega
    have hfits' : Fits (UInt64.ofNat es.length).toNat numBatches.toNat := by rwa [hnat]
    have hrange := hfits'.batchRange_toNat hi
    rw [hnat] at hrange
    have hmono := blockStart_mono es.length numBatches.toNat i
    obtain ⟨hsame, hsorted, -⟩ := sortRange_spec es hmono (min_le_left _ _)
    have hsame : (sortBatch es numBatches.toNat i).length = es.length := hsame
    have hnext : UInt64.ofNat i + 1 = UInt64.ofNat (i + 1) := by simp
    have hrest := ih (sortBatch es numBatches.toNat i) (i + 1) (by rwa [hsame]) (by rwa [hsame])
      (by omega)
    have hlater : ((List.range' (i + 1) k).flatMap fun j =>
        batchLines ((batch (sortBatch es numBatches.toNat i) numBatches.toNat j).mergeSort edgeLe)) =
        (List.range' (i + 1) k).flatMap fun j =>
          batchLines ((batch es numBatches.toNat j).mergeSort edgeLe) := by
      apply List.flatMap_congr
      intro j hj
      rw [batch_sortBatch es _ (List.mem_range'_1.mp hj).1]
    rw [hsame, hlater] at hrest
    unfold sortBatch at hrest
    unfold writeBatches
    dsimp only
    rw [hrange.1, hrange.2, if_pos ⟨hmono, min_le_left _ _⟩, hnext, hrest, Option.map_some, hsorted,
      List.range'_succ, List.flatMap_cons, ← writeEdges_batchLines]
    rfl

/-- The lines of the file. -/
def workload (es : List Edge) (b : ℕ) : List Line :=
  (List.range b).flatMap fun i => batchLines ((batch es b i).mergeSort edgeLe)

theorem edges_workload (es : List Edge) (hb : 0 < b) : (edges (workload es b)).Perm es := by
  have hbatches : edges (workload es b) =
      (List.range b).flatMap fun i => (batch es b i).mergeSort edgeLe := by
    unfold edges workload
    rw [List.flatMap_assoc]
    apply List.flatMap_congr
    intro i _
    exact edges_batchLines _
  have hperm : ((List.range b).flatMap fun i => (batch es b i).mergeSort edgeLe).Perm
      ((List.range b).flatMap (batch es b)) :=
    List.Perm.flatMap_left _ fun i _ => List.mergeSort_perm _ _
  rw [hbatches]
  exact hperm.trans (.of_eq (flatMap_batch es hb))

/-- The edges as they are divided. -/
def shuffled (randomShuffle : Option (List Edge → List Edge)) (input : List Char) : List Edge :=
  (randomShuffle.getD id) (readEdges input)

variable {randomShuffle : Option (List Edge → List Edge)} {input : List Char}

theorem shuffled_perm (hshuffle : ∀ f ∈ randomShuffle, ∀ l, (f l).Perm l) (input : List Char) :
    (shuffled randomShuffle input).Perm (readEdges input) := by
  cases randomShuffle with
  | none => exact .refl _
  | some f => exact hshuffle f rfl _

theorem main_eq (hshuffle : ∀ f ∈ randomShuffle, ∀ l, (f l).Perm l) (hne : readEdges input ≠ [])
    (hlen : (readEdges input).length < 2 ^ 64) (hb : 0 < numBatches.toNat)
    (hfits : Fits (readEdges input).length numBatches.toNat) :
    main randomShuffle input numBatches =
      some (text (workload (shuffled randomShuffle input) numBatches.toNat)) := by
  have hsame := (shuffled_perm hshuffle input).length_eq
  have hpos : numBatches ≠ 0 := fun h => hb.ne' (congrArg UInt64.toNat h)
  have hfits' : Fits (shuffled randomShuffle input).length numBatches.toNat := by rwa [hsame]
  have hwrite := writeBatches_eq (k := numBatches.toNat) (shuffled randomShuffle input) 0 hfits'
    (by rwa [hsame]) (Nat.zero_add _)
  rw [← List.range_eq_range'] at hwrite
  unfold main
  rw [if_neg hne, if_neg hpos]
  exact hwrite

/-- A run of the loop stays inside the vector. -/
theorem bounds_of_writeBatches {numEdges : UInt64} {k : ℕ} {fout : List Char}
    (h : writeBatches numEdges numBatches k (UInt64.ofNat i) es = some fout) (hi : i ≤ j)
    (hj : j < i + k) :
    (batchRange numEdges numBatches (UInt64.ofNat j)).1.toNat ≤
      (batchRange numEdges numBatches (UInt64.ofNat j)).2.toNat := by
  induction k generalizing i es fout with
  | zero => omega
  | succ k ih =>
    unfold writeBatches at h
    dsimp only at h
    split_ifs at h with hin
    obtain ⟨rest, hrest, -⟩ := Option.map_eq_some_iff.mp h
    have hnext : UInt64.ofNat i + 1 = UInt64.ofNat (i + 1) := by simp
    rcases hi.eq_or_lt with rfl | hlt
    · exact hin.1
    · exact ih (hnext ▸ hrest) hlt (by omega)

/-- Whatever the ranges, what is written has an execution point for each batch. -/
theorem execute_of_writeBatches {numEdges batchIdx : UInt64} {k : ℕ} {fout : List Char}
    (h : writeBatches numEdges numBatches k batchIdx es = some fout) :
    ∃ w, fout = text w ∧ k ≤ w.count .execute := by
  induction k generalizing batchIdx es fout with
  | zero => exact ⟨[], (Option.some.inj h).symm, Nat.zero_le _⟩
  | succ k ih =>
    unfold writeBatches at h
    dsimp only at h
    split_ifs at h
    obtain ⟨rest, hrest, rfl⟩ := Option.map_eq_some_iff.mp h
    obtain ⟨w, rfl, hcount⟩ := ih hrest
    refine ⟨_, writeEdges_batchLines _ w, ?_⟩
    rw [List.count_append, Nat.add_comm k 1]
    exact Nat.add_le_add (List.count_pos_iff.mpr (execute_mem_batchLines _)) hcount

end Written

/-- The ranges tile the vector and the file has the edges, each as often as the input has it, if and
only if the rounded-up batches in front of the last one fit into the vector. -/
theorem main_divides_iff (randomShuffle : Option (List Edge → List Edge))
    (hshuffle : ∀ f ∈ randomShuffle, ∀ l, (f l).Perm l) (input : List Char)
    (hne : readEdges input ≠ []) (hlen : (readEdges input).length < 2 ^ 64) (numBatches : UInt64)
    (hb : 1 ≤ numBatches) :
    (RangesCover (UInt64.ofNat (readEdges input).length) numBatches ∧
        ∃ w, main randomShuffle input numBatches = some (text w) ∧
          (edges w).Perm (readEdges input)) ↔
      Fits (readEdges input).length numBatches.toNat := by
  have hb : 0 < numBatches.toNat := UInt64.le_iff_toNat_le.mp hb
  have hnat : (UInt64.ofNat (readEdges input).length).toNat = (readEdges input).length :=
    UInt64.toNat_ofNat_of_lt' hlen
  constructor
  · rintro ⟨hcover, -⟩
    exact hnat ▸ hcover.fits hb
  · intro hfits
    exact ⟨rangesCover_of_fits (by rwa [hnat]) hb, _, main_eq hshuffle hne hlen hb hfits,
      (edges_workload _ hb).trans (shuffled_perm hshuffle input)⟩

def fiveEdges : List Edge := [(3, 1), (0, 2), (3, 0), (1, 4), (2, 2)]

/-- Batches of two edges: the fourth begins at 6. -/
theorem main_fiveEdges : readEdges (edgesText fiveEdges) = fiveEdges ∧ ¬ RangesCover 5 4 ∧
    main none (edgesText fiveEdges) 4 = none := by
  have hread := readEdges_edgesText fiveEdges
  refine ⟨hread, fun h => absurd (h.bounds 3 (by decide)).1 (by decide), ?_⟩
  rcases hrun : main none (edgesText fiveEdges) 4 with - | fout
  · rfl
  · unfold main at hrun
    rw [hread] at hrun
    have hrun : writeBatches 5 4 4 (UInt64.ofNat 0) fiveEdges = some fout := hrun
    exact absurd (bounds_of_writeBatches (j := 3) hrun (by decide) (by decide)) (by decide)

/-- Two batches of three and of two edges. -/
theorem main_divides_two : ∃ w, main none (edgesText fiveEdges) 2 = some (text w) ∧
    (edges w).Perm (readEdges (edgesText fiveEdges)) := by
  have hread := readEdges_edgesText fiveEdges
  have hiff := main_divides_iff none (by simp) (edgesText fiveEdges) (by rw [hread]; decide)
    (by rw [hread]; decide) 2 (by decide)
  exact (hiff.mpr (by rw [hread]; decide)).2

end Scripts.DivideIntoBatches
