import GraphLogSketch.Library.Grouping
import GraphLogSketch.Scea.TriangleCounting
import GraphLogSketch.Scripts.DivideIntoBatches
import GraphLogSketch.Scripts.EdgeListConvert

/-! The edit scalability benchmark for large graphs: a binary edge list is mapped into memory, and one
range of it after the other is grouped by source and ingested. `none` is a failed assertion or mapping. -/
namespace Microbench.EditScalabilityLarge
open ByteWords Grouping Scea Tiling Scripts.DivideIntoBatches GraphConvert

/-- The size of a packed edge. -/
def sizeofEdge : UInt64 := 16

/-- The edges that a region of the file is read as. -/
def mappedEdges (file : List UInt8) (startIndex endIndex : UInt64) : Option (List Edge) :=
  let offset := startIndex * sizeofEdge
  let size := (endIndex - startIndex) * sizeofEdge
  if offset.toNat + size.toNat ≤ file.length ∧ size / sizeofEdge = endIndex - startIndex then
    some ((List.range (endIndex - startIndex).toNat).map fun i =>
      (wordAt file (offset.toNat + 16 * i), wordAt file (offset.toNat + 16 * i + 8)))
  else none

/-- The order in which the threads get to the edges, and that of the finished map. -/
structure Interleaving where
  arrive : List Edge → List Edge
  hashOrder : List (UInt64 × List UInt64) → List (UInt64 × List UInt64)
  arrive_perm : ∀ es, (arrive es).Perm es
  hashOrder_perm : ∀ m, (hashOrder m).Perm m

def prepareBatch (interleaving : Interleaving) (file : List UInt8) (startIndex endIndex : UInt64) :
    Option (List (UInt64 × List UInt64)) :=
  if endIndex ≤ startIndex then some []
  else (mappedEdges file startIndex endIndex).map fun es =>
    interleaving.hashOrder (grouped (interleaving.arrive es))

/-- The number of edges; an empty file cannot be mapped. -/
def numEdges (file : List UInt8) : Option UInt64 :=
  let size := UInt64.ofNat file.length
  let n := size / sizeofEdge
  if file ≠ [] ∧ n * sizeofEdge = size then some n else none

/-- The ids of a batch, as indices of the graph. -/
def toBatch (m : List (UInt64 × List UInt64)) : Batch :=
  m.map fun p => (p.1.toNat, p.2.map UInt64.toNat)

section Main
variable (file : List UInt8) (numEdgesToPreIngest numBatches : UInt64)
  (interleaving : ℕ → Interleaving) (schedule : ℕ → Schedule) (sorted : ℕ → List ℕ)

def numEdgesPerBatch (numEdges : UInt64) : UInt64 :=
  (numEdges - numEdgesToPreIngest + (numBatches - 1)) / numBatches

def startEdge (numEdges batchNumber : UInt64) : UInt64 :=
  min numEdges
    (numEdgesToPreIngest + batchNumber * numEdgesPerBatch numEdgesToPreIngest numBatches numEdges)

def endEdge (numEdges batchNumber : UInt64) : UInt64 :=
  min numEdges (numEdgesToPreIngest +
    (batchNumber + 1) * numEdgesPerBatch numEdgesToPreIngest numBatches numEdges)

/-- What the loop prepares, from a batch on. -/
def prepareBatches (numEdges : UInt64) : ℕ → ℕ → Option (List (List (UInt64 × List UInt64)))
  | 0, _ => some []
  | k + 1, batchNumber => do
    let batch ← prepareBatch (interleaving batchNumber) file
      (startEdge numEdgesToPreIngest numBatches numEdges (UInt64.ofNat batchNumber))
      (endEdge numEdgesToPreIngest numBatches numEdges (UInt64.ofNat batchNumber))
    let batches ← prepareBatches numEdges k (batchNumber + 1)
    return batch :: batches

/-- What is ingested in front of the batches, if `numEdgesToPreIngest` is not 0, and the batches. The size
of a batch is a quotient by their number. -/
def prepared (preInterleaving : Interleaving) :
    Option (Option (List (UInt64 × List UInt64)) × List (List (UInt64 × List UInt64))) := do
  let numEdges ← numEdges file
  let pre ← if 0 < numEdgesToPreIngest then
      (prepareBatch preInterleaving file 0 numEdgesToPreIngest).map some
    else some none
  let batches ← if numBatches = 0 then none else
    prepareBatches file numEdgesToPreIngest numBatches interleaving numEdges numBatches.toNat 0
  return (pre, batches)

/-- What the loop does to the graph; the algorithm may sort lists of it after each batch. -/
def batchCalls (ms : List (List (UInt64 × List UInt64))) : List Call :=
  ms.zipIdx.flatMap fun m =>
    .batch (toBatch m.1) (schedule m.2) :: (sorted m.2).map .sortEdges

/-- What is done to the graph. -/
def main (preInterleaving : Interleaving) (preSchedule : Schedule) : Option (List Call) := do
  let (pre, ms) ← prepared file numEdgesToPreIngest numBatches interleaving preInterleaving
  return pre.toList.map (fun m => .batch (toBatch m) preSchedule) ++ batchCalls schedule sorted ms

end Main

section Reading
variable {es : List Edge} {s t : UInt64}

/-- The records of the file are the edges. -/
theorem mappedEdges_edgeList (hsize : 16 * es.length < 2 ^ 63) (hst : s.toNat ≤ t.toNat)
    (ht : t.toNat ≤ es.length) :
    mappedEdges (edgeList es) s t = some ((es.drop s.toNat).take (t.toNat - s.toNat)) := by
  have hdiff : (t - s).toNat = t.toNat - s.toNat :=
    UInt64.toNat_sub_of_le _ _ (UInt64.le_iff_toNat_le.mpr hst)
  have hoffset : (s * sizeofEdge).toNat = 16 * s.toNat := by
    rw [UInt64.toNat_mul]
    show s.toNat * 16 % 2 ^ 64 = _
    omega
  have hregion : ((t - s) * sizeofEdge).toNat = 16 * (t.toNat - s.toNat) := by
    rw [UInt64.toNat_mul, hdiff]
    show (t.toNat - s.toNat) * 16 % 2 ^ 64 = _
    omega
  have hspan : (t - s) * sizeofEdge / sizeofEdge = t - s := by
    rw [← UInt64.toNat_inj, UInt64.toNat_div, hregion, hdiff]
    show 16 * _ / 16 = _
    omega
  have hlen := edgeList_length es
  unfold mappedEdges
  dsimp only
  rw [hoffset, hregion, if_pos ⟨by omega, hspan⟩, hdiff]
  congr 1
  apply List.ext_getElem
  · simp
    omega
  · intro i hi _
    have hi : i < t.toNat - s.toNat := by simpa using hi
    have hget : es[s.toNat + i]? = some es[s.toNat + i] := List.getElem?_eq_getElem (by omega)
    obtain ⟨hsrc, hdst⟩ := wordAt_edgeList hget
    rw [Nat.mul_add] at hsrc hdst
    simp [hsrc, hdst]

theorem numEdges_edgeList (hne : es ≠ []) (hsize : 16 * es.length < 2 ^ 63) :
    numEdges (edgeList es) = some (UInt64.ofNat es.length) := by
  have hpos := List.length_pos_of_ne_nil hne
  have hlen := edgeList_length es
  have hsz : (UInt64.ofNat (16 * es.length)).toNat = 16 * es.length :=
    UInt64.toNat_ofNat_of_lt' (by show 16 * es.length < 2 ^ 64; omega)
  have hdiv : UInt64.ofNat (16 * es.length) / sizeofEdge = UInt64.ofNat es.length := by
    rw [← UInt64.toNat_inj, UInt64.toNat_div, hsz, UInt64.toNat_ofNat_of_lt' (by
      show es.length < 2 ^ 64; omega)]
    show 16 * _ / 16 = _
    omega
  have hmul : UInt64.ofNat es.length * sizeofEdge = UInt64.ofNat (16 * es.length) := by
    rw [UInt64.ofNat_mul, mul_comm]
    rfl
  have hfile : edgeList es ≠ [] := by
    intro hnil
    rw [hnil, List.length_nil] at hlen
    omega
  unfold numEdges
  dsimp only
  rw [hlen, hdiv, if_pos ⟨hfile, hmul⟩]

/-- A range is prepared with all its edges, in whatever order these arrive. -/
theorem prepareBatch_edgeList (es : List Edge) (interleaving : Interleaving) (hsize : 16 * es.length < 2 ^ 63)
    (hst : s.toNat ≤ t.toNat) (ht : t.toNat ≤ es.length) :
    ∃ m, prepareBatch interleaving (edgeList es) s t = some m ∧
      (pairs m).Perm ((es.drop s.toNat).take (t.toNat - s.toNat)) ∧ ∀ p ∈ m, p.2 ≠ [] := by
  unfold prepareBatch
  split_ifs with hle
  · have hle := UInt64.le_iff_toNat_le.mp hle
    refine ⟨[], rfl, ?_, fun p hp => absurd hp List.not_mem_nil⟩
    rw [Nat.sub_eq_zero_of_le hle, List.take_zero]
    exact .nil
  · rw [mappedEdges_edgeList hsize hst ht]
    refine ⟨_, rfl, ?_, ?_⟩
    · exact (pairs_perm (interleaving.hashOrder_perm _)).trans
        ((pairs_grouped _).trans (interleaving.arrive_perm _))
    · intro p hp
      exact grouped_ne_nil ((interleaving.hashOrder_perm _).mem_iff.mp hp)

end Reading

section Batches
variable {es : List Edge} {pre numBatches : UInt64} {i : ℕ}

theorem endEdge_ofNat (numEdgesToPreIngest numBatches numEdges : UInt64) (i : ℕ) :
    endEdge numEdgesToPreIngest numBatches numEdges (UInt64.ofNat i) =
      startEdge numEdgesToPreIngest numBatches numEdges (UInt64.ofNat (i + 1)) := by
  simp [startEdge, endEdge]

/-- Where a batch starts is clamped; nothing wraps when no more than all edges are ingested before. -/
theorem startEdge_preIngest {numEdgesToPreIngest numEdges : UInt64}
    (hle : numEdgesToPreIngest ≤ numEdges) (hb : 0 < numBatches.toNat)
    (hi : i ≤ numBatches.toNat) (hsum : numEdges.toNat + (numBatches.toNat - 1) < 2 ^ 64) :
    (startEdge numEdgesToPreIngest numBatches numEdges (UInt64.ofNat i)).toNat =
      numEdgesToPreIngest.toNat +
        blockStart (numEdges.toNat - numEdgesToPreIngest.toNat) numBatches.toNat i := by
  have hsub := UInt64.toNat_sub_of_le _ _ hle
  have hle := UInt64.le_iff_toNat_le.mp hle
  have hmul :
      (UInt64.ofNat i * edgesPerBatch (numEdges - numEdgesToPreIngest) numBatches).toNat = _ :=
    mul_edgesPerBatch_toNat hb hi (by omega)
  rw [hsub] at hmul
  have hall := (Nat.mul_le_mul_right (blockSize (numEdges.toNat - numEdgesToPreIngest.toNat)
    numBatches.toNat) hi).trans (mul_blockSize_le _ _)
  have hadd : (numEdgesToPreIngest + UInt64.ofNat i *
      edgesPerBatch (numEdges - numEdgesToPreIngest) numBatches).toNat =
      numEdgesToPreIngest.toNat +
        i * blockSize (numEdges.toNat - numEdgesToPreIngest.toNat) numBatches.toNat := by
    rw [UInt64.toNat_add, hmul]
    omega
  show (min numEdges (numEdgesToPreIngest + UInt64.ofNat i *
    edgesPerBatch (numEdges - numEdgesToPreIngest) numBatches)).toNat = _
  rw [toNat_min, hadd, blockStart]
  omega

/-- How many edges there are before and in the first batches. -/
def edgesUpTo (n pre b i : ℕ) : ℕ := pre + blockStart (n - pre) b i

theorem edgesUpTo_mono (n pre b i : ℕ) : edgesUpTo n pre b i ≤ edgesUpTo n pre b (i + 1) :=
  Nat.add_le_add_left (blockStart_mono _ _ i) pre

theorem edgesUpTo_le {n pre : ℕ} (hpre : pre ≤ n) (b i : ℕ) : edgesUpTo n pre b i ≤ n := by
  have hle : blockStart (n - pre) b i ≤ n - pre := min_le_left _ _
  unfold edgesUpTo
  omega

/-- Where a batch starts and ends. -/
theorem startEdge_edgesUpTo (hpre : pre.toNat ≤ es.length) (hb : 0 < numBatches.toNat)
    (hi : i ≤ numBatches.toNat) (hsum : es.length + numBatches.toNat < 2 ^ 64) :
    (startEdge pre numBatches (UInt64.ofNat es.length) (UInt64.ofNat i)).toNat =
      edgesUpTo es.length pre.toNat numBatches.toNat i := by
  have hnat : (UInt64.ofNat es.length).toNat = es.length := UInt64.toNat_ofNat_of_lt' (by
    show es.length < 2 ^ 64
    omega)
  have hle : pre ≤ UInt64.ofNat es.length := UInt64.le_iff_toNat_le.mpr (by rwa [hnat])
  have hstart := startEdge_preIngest hle hb hi (by rw [hnat]; omega)
  rwa [hnat] at hstart

/-- What is prepared for batch `i` has its edges, and no source without edges. -/
structure Prepares (es : List Edge) (pre numBatches i : ℕ) (m : List (UInt64 × List UInt64)) :
    Prop where
  pairs : (pairs m).Perm ((es.drop (edgesUpTo es.length pre numBatches i)).take
    (edgesUpTo es.length pre numBatches (i + 1) - edgesUpTo es.length pre numBatches i))
  keys : ∀ p ∈ m, p.2 ≠ []

theorem prepareBatches_edgeList (interleaving : ℕ → Interleaving) (hsize : 16 * es.length < 2 ^ 63)
    (hpre : pre.toNat ≤ es.length) (hsum : es.length + numBatches.toNat < 2 ^ 64) (k : ℕ)
    (hk : i + k = numBatches.toNat) :
    ∃ ms, prepareBatches (edgeList es) pre numBatches interleaving (UInt64.ofNat es.length) k i =
        some ms ∧
      List.Forall₂ (Prepares es pre.toNat numBatches.toNat) (List.range' i k) ms := by
  induction k generalizing i with
  | zero => exact ⟨[], rfl, .nil⟩
  | succ k ih =>
    have hi : i < numBatches.toNat := by omega
    have hb := Nat.zero_lt_of_lt hi
    have hstart := startEdge_edgesUpTo hpre hb hi.le hsum
    have hend := startEdge_edgesUpTo hpre hb (Nat.succ_le_of_lt hi) hsum
    rw [← endEdge_ofNat] at hend
    obtain ⟨m, hm, hpairs, hkeys⟩ := prepareBatch_edgeList es (interleaving i) hsize
      (s := startEdge pre numBatches (UInt64.ofNat es.length) (UInt64.ofNat i))
      (t := endEdge pre numBatches (UInt64.ofNat es.length) (UInt64.ofNat i))
      (by rw [hstart, hend]; exact edgesUpTo_mono _ _ _ _)
      (by rw [hend]; exact edgesUpTo_le hpre _ _)
    rw [hstart, hend] at hpairs
    obtain ⟨ms, hms, hall⟩ := ih (i := i + 1) (by omega)
    refine ⟨m :: ms, ?_, ?_⟩
    · rw [prepareBatches, hm, hms]
      rfl
    · rw [List.range'_succ]
      exact .cons ⟨hpairs, hkeys⟩ hall

/-- What is ingested in front of the batches has the first edges, and is there if there are any. -/
structure PreparesFirst (es : List Edge) (pre : ℕ) (m : Option (List (UInt64 × List UInt64))) :
    Prop where
  pairs : (m.toList.flatMap pairs).Perm (es.take pre)
  keys : ∀ m' ∈ m, ∀ p ∈ m', p.2 ≠ []
  isSome : m.isSome ↔ 0 < pre

/-- What the program prepares on a file of edges. -/
theorem prepared_edgeList (interleaving : ℕ → Interleaving) (preInterleaving : Interleaving)
    (hne : es ≠ []) (hsize : 16 * es.length < 2 ^ 63) (hpre : pre.toNat ≤ es.length)
    (hb : numBatches ≠ 0) (hsum : es.length + numBatches.toNat < 2 ^ 64) :
    ∃ m ms, prepared (edgeList es) pre numBatches interleaving preInterleaving = some (m, ms) ∧
      PreparesFirst es pre.toNat m ∧
      List.Forall₂ (Prepares es pre.toNat numBatches.toNat) (List.range numBatches.toNat) ms := by
  obtain ⟨ms, hms, hall⟩ := prepareBatches_edgeList interleaving hsize hpre hsum numBatches.toNat
    (Nat.zero_add _)
  rw [← List.range_eq_range'] at hall
  unfold prepared
  simp only [numEdges_edgeList hne hsize, Option.bind_eq_bind, Option.bind_some, if_neg hb, hms]
  by_cases hpos : 0 < pre
  · obtain ⟨m, hm, hpairs, hkeys⟩ := prepareBatch_edgeList (s := 0) es preInterleaving hsize
      (Nat.zero_le _) hpre
    have hpairs : (pairs m).Perm (es.take pre.toNat) := hpairs
    refine ⟨some m, ms, ?_, ⟨?_, ?_, ?_⟩, hall⟩
    · rw [if_pos hpos, hm]
      rfl
    · rwa [Option.toList_some, List.flatMap_singleton]
    · rintro m' hm'
      rwa [← Option.some.inj hm']
    · exact iff_of_true rfl (UInt64.lt_iff_toNat_lt.mp hpos)
  · have hzero : ¬ 0 < pre.toNat := fun h => hpos (UInt64.lt_iff_toNat_lt.mpr h)
    refine ⟨none, ms, ?_, ⟨?_, ?_, ?_⟩, hall⟩
    · rw [if_neg hpos]
      rfl
    · rw [Nat.eq_zero_of_not_pos hzero]
      exact .nil
    · rintro m' ⟨⟩
    · exact iff_of_false Bool.false_ne_true hzero

/-- Without edges in front, the batches are those of all edges. -/
theorem Prepares.batch {m : List (UInt64 × List UInt64)} {b : ℕ} (h : Prepares es 0 b i m) :
    (Grouping.pairs m).Perm (batch es b i) := by
  have hpairs := h.pairs
  simp only [edgesUpTo, Nat.zero_add, Nat.sub_zero] at hpairs
  exact hpairs

theorem batches_batchCalls (schedule : ℕ → Schedule) (sorted : ℕ → List ℕ)
    (ms : List (List (UInt64 × List UInt64))) :
    batches (batchCalls schedule sorted ms) = ms.map toBatch := by
  unfold batchCalls
  generalize 0 = n
  induction ms generalizing n with
  | nil => rfl
  | cons m ms ih =>
    have hsorted (cs : List Call) : batches ((sorted n).map Call.sortEdges ++ cs) = batches cs := by
      simp [batches, Call.edges]
    rw [List.zipIdx_cons, List.flatMap_cons, List.map_cons, ← ih (n + 1)]
    exact congrArg (toBatch m :: ·) (hsorted _)

theorem exists_of_forall₂ {α β : Type} {R : α → β → Prop} {l : List α} {ms : List β}
    (h : List.Forall₂ R l ms) {m : β} (hm : m ∈ ms) : ∃ i ∈ l, R i m := by
  induction h with
  | nil => exact absurd hm List.not_mem_nil
  | cons hfirst _ ih =>
    rcases List.mem_cons.mp hm with rfl | hm
    · exact ⟨_, List.mem_cons_self, hfirst⟩
    · obtain ⟨i, hi, hm⟩ := ih hm
      exact ⟨i, List.mem_cons_of_mem _ hi, hm⟩

theorem flatMap_pairs_perm {f : ℕ → List Edge} {is : List ℕ}
    {ms : List (List (UInt64 × List UInt64))}
    (h : List.Forall₂ (fun i m => (pairs m).Perm (f i)) is ms) :
    (ms.flatMap pairs).Perm (is.flatMap f) := by
  induction h with
  | nil => exact .nil
  | cons hm _ ih =>
    rw [List.flatMap_cons, List.flatMap_cons]
    exact hm.append ih

end Batches

section Graph
variable {m : List (UInt64 × List UInt64)} {ms : List (List (UInt64 × List UInt64))}
  {es : List Edge}

/-- The destinations that a list of edges has for a source. -/
def targets (es : List Edge) (v : ℕ) : List ℕ :=
  (es.filter fun e => e.1.toNat = v).map fun e => e.2.toNat

/-- The ids in a list of edges. -/
def vertices (es : List Edge) : List ℕ := es.flatMap fun e => [e.1.toNat, e.2.toNat]

def largestId (es : List Edge) : ℕ := (vertices es).foldl max 0

theorem targets_append (es es' : List Edge) (v : ℕ) :
    targets (es ++ es') v = targets es v ++ targets es' v := by
  simp [targets]

theorem received_toBatch (m : List (UInt64 × List UInt64)) (v : ℕ) :
    received (toBatch m) v = targets (pairs m) v := by
  induction m with
  | nil => rfl
  | cons p m ih =>
    have hhead : (if p.1.toNat = v then p.2.map UInt64.toNat else []) =
        targets (p.2.map fun d => (p.1, d)) v := by
      unfold targets
      split_ifs with hv
      · rw [List.filter_eq_self.mpr, List.map_map]
        · rfl
        · intro e he
          obtain ⟨d, -, rfl⟩ := List.mem_map.mp he
          exact decide_eq_true hv
      · rw [List.filter_eq_nil_iff.mpr]
        · rfl
        · intro e he
          obtain ⟨d, -, rfl⟩ := List.mem_map.mp he
          exact fun h => hv (of_decide_eq_true h)
    rw [pairs_cons, targets_append, ← ih, ← hhead]
    rfl

theorem destinations_toBatch (ms : List (List (UInt64 × List UInt64))) (v : ℕ) :
    destinations (ms.map toBatch) v = targets (ms.flatMap pairs) v := by
  induction ms with
  | nil => rfl
  | cons m ms ih =>
    rw [List.flatMap_cons, targets_append, ← ih, ← received_toBatch]
    rfl

theorem targets_perm {es es' : List Edge} (h : es.Perm es') (v : ℕ) :
    (targets es v).Perm (targets es' v) :=
  (h.filter _).map _

/-- A batch names the ids of its edges. -/
theorem mem_ids_toBatch (hkeys : ∀ p ∈ m, p.2 ≠ []) {d : ℕ} :
    d ∈ ids (toBatch m) ↔ d ∈ vertices (pairs m) := by
  constructor
  · intro hd
    obtain ⟨q, hq, hd⟩ := List.mem_flatMap.mp hd
    obtain ⟨p, hp, rfl⟩ := List.mem_map.mp hq
    have hedge {x : UInt64} (hx : x ∈ p.2) : (p.1, x) ∈ pairs m :=
      List.mem_flatMap.mpr ⟨p, hp, List.mem_map_of_mem hx⟩
    rcases List.mem_cons.mp hd with rfl | hd
    · obtain ⟨x, hx⟩ := List.exists_mem_of_ne_nil _ (hkeys p hp)
      exact List.mem_flatMap.mpr ⟨_, hedge hx, by simp⟩
    · obtain ⟨x, hx, rfl⟩ := List.mem_map.mp hd
      exact List.mem_flatMap.mpr ⟨_, hedge hx, by simp⟩
  · intro hd
    obtain ⟨e, he, hd⟩ := List.mem_flatMap.mp hd
    obtain ⟨p, hp, he⟩ := List.mem_flatMap.mp he
    obtain ⟨x, hx, rfl⟩ := List.mem_map.mp he
    refine List.mem_flatMap.mpr ⟨_, List.mem_map_of_mem hp, ?_⟩
    simp only [List.mem_cons, List.not_mem_nil, or_false] at hd
    rcases hd with rfl | rfl
    · exact List.mem_cons_self
    · exact List.mem_cons_of_mem _ (List.mem_map_of_mem hx)

theorem foldl_max_le {l : List ℕ} {a b : ℕ} (ha : a ≤ b) (hl : ∀ x ∈ l, x ≤ b) :
    l.foldl max a ≤ b := by
  induction l generalizing a with
  | nil => exact ha
  | cons x l ih =>
    exact ih (max_le ha (hl x List.mem_cons_self)) fun y hy => hl y (List.mem_cons_of_mem x hy)

theorem vertexCount_le {bs : List Batch} {n : ℕ} (h : ∀ b ∈ bs, maxVertexId b + 1 ≤ n) :
    vertexCount bs ≤ n := by
  have hfold : vertexCount bs = (bs.map fun b => maxVertexId b + 1).foldl max 0 := by
    rw [List.foldl_map]
    rfl
  rw [hfold]
  apply foldl_max_le (Nat.zero_le n)
  intro x hx
  obtain ⟨b, hb, rfl⟩ := List.mem_map.mp hx
  exact h b hb

/-- There are vertices up to the largest id. -/
theorem vertexCount_toBatch (hms : ∀ m ∈ ms, ∀ p ∈ m, p.2 ≠ []) (hperm : (ms.flatMap pairs).Perm es)
    (hne : es ≠ []) : vertexCount (ms.map toBatch) = 1 + largestId es := by
  have hmem {m : List (UInt64 × List UInt64)} (hm : m ∈ ms) {d : ℕ} (hd : d ∈ ids (toBatch m)) :
      d ∈ vertices es := by
    obtain ⟨e, he, hd⟩ := List.mem_flatMap.mp ((mem_ids_toBatch (hms m hm)).mp hd)
    exact List.mem_flatMap.mpr ⟨e, hperm.mem_iff.mp (List.mem_flatMap.mpr ⟨m, hm, he⟩), hd⟩
  have hnamed {d : ℕ} (hd : d ∈ vertices es) : d < vertexCount (ms.map toBatch) := by
    obtain ⟨e, he, hd⟩ := List.mem_flatMap.mp hd
    obtain ⟨m, hm, he⟩ := List.mem_flatMap.mp (hperm.mem_iff.mpr he)
    exact lt_vertexCount_of_mem (List.mem_map_of_mem hm)
      ((mem_ids_toBatch (hms m hm)).mpr (List.mem_flatMap.mpr ⟨e, he, hd⟩))
  apply le_antisymm
  · apply vertexCount_le
    intro b hb
    obtain ⟨m, hm, rfl⟩ := List.mem_map.mp hb
    rw [Nat.add_comm, maxVertexId_eq]
    exact Nat.add_le_add_left (foldl_max_le (Nat.zero_le _) fun d hd =>
      le_foldl_max.2 d (hmem hm hd)) 1
  · obtain ⟨e, he⟩ := List.exists_mem_of_ne_nil _ hne
    have hpos : 0 < vertexCount (ms.map toBatch) := Nat.zero_lt_of_lt
      (hnamed (List.mem_flatMap.mpr ⟨e, he, List.mem_cons_self⟩))
    have hle : largestId es ≤ vertexCount (ms.map toBatch) - 1 :=
      foldl_max_le (Nat.zero_le _) fun d hd => Nat.le_pred_of_lt (hnamed hd)
    omega

end Graph

/-- The calls of the main program on a file of edges, and the graph they give. -/
theorem main_edgeList {es : List Edge} (hne : es ≠ []) (hsize : 16 * es.length < 2 ^ 63)
    {numBatches : UInt64} (hb : 0 < numBatches.toNat)
    (hsum : es.length + numBatches.toNat < 2 ^ 64) (interleaving : ℕ → Interleaving)
    (schedule : ℕ → Schedule) (sorted : ℕ → List ℕ) (preInterleaving : Interleaving)
    (preSchedule : Schedule) :
    ∃ cs, main (edgeList es) 0 numBatches interleaving schedule sorted preInterleaving preSchedule =
        some cs ∧
      adjGraph.size (adjGraph.calls .new cs) = 1 + largestId es ∧
      ∀ v, (adjGraph.forEachEdge (adjGraph.calls .new cs) v).Perm (targets es v) := by
  have hnum : numBatches ≠ 0 := by
    rintro rfl
    exact absurd hb (lt_irrefl 0)
  obtain ⟨pre, ms, hprepared, hpre, hall⟩ := prepared_edgeList interleaving preInterleaving
    hne hsize (show (0 : UInt64).toNat ≤ es.length from Nat.zero_le _) hnum hsum
  obtain rfl : pre = none := Option.not_isSome_iff_eq_none.mp fun h => lt_irrefl 0 (hpre.isSome.mp h)
  have hperm := flatMap_pairs_perm (hall.imp fun _ _ h => h.batch)
  rw [flatMap_batch es hb] at hperm
  have hkeys : ∀ m ∈ ms, ∀ p ∈ m, p.2 ≠ [] := by
    intro m hm
    obtain ⟨i, _, h⟩ := exists_of_forall₂ hall hm
    exact h.keys
  have hgraph := adjGraph_calls_ok (batchCalls schedule sorted ms)
  rw [batches_batchCalls] at hgraph
  refine ⟨batchCalls schedule sorted ms, ?_, ?_, fun v => ?_⟩
  · rw [main, hprepared]
    rfl
  · exact hgraph.count.trans (vertexCount_toBatch hkeys hperm hne)
  · refine (hgraph.out v).trans ?_
    rw [destinations_toBatch]
    exact targets_perm hperm v

/-- A text edge list that is converted is read back in its order, and ingested in any number of batches it
gives the graph of its edges. -/
theorem main_ingests_text (reorder : List U64WriteRecord → List U64WriteRecord)
    (hperm : ∀ rs, (reorder rs).Perm rs) (comma comment : Char) (hdelims : Delims comma comment)
    (ls : List EdgeLine) (hls : ∀ l ∈ ls, l.Ok) (hne : edgesOf ls ≠ [])
    (hids : ∀ d ∈ vertices (edgesOf ls), d < 2 ^ 64 - 1)
    (hsize : 16 * (edgesOf ls).length < 2 ^ 63) :
    ∃ file numVerts, el2belConvert reorder comma comment
        (GraphConvert.edgesText comma comment ls) = some (file, numVerts) ∧
      numEdges file = some (UInt64.ofNat (edgesOf ls).length) ∧
      mappedEdges file 0 (UInt64.ofNat (edgesOf ls).length) = some (edgesOf ls) ∧
      ∀ numBatches : UInt64, 1 ≤ numBatches → (edgesOf ls).length + numBatches.toNat < 2 ^ 64 →
        ∀ (interleaving : ℕ → Interleaving) (schedule : ℕ → Schedule) (sorted : ℕ → List ℕ)
          (preInterleaving : Interleaving) (preSchedule : Schedule),
          ∃ cs, main file 0 numBatches interleaving schedule sorted preInterleaving preSchedule =
              some cs ∧
            adjGraph.size (adjGraph.calls .new cs) = 1 + largestId (edgesOf ls) ∧
            adjGraph.size (adjGraph.calls .new cs) < 2 ^ 64 ∧
            ∀ v, (adjGraph.forEachEdge (adjGraph.calls .new cs) v).Perm
              (targets (edgesOf ls) v) := by
  have hbel := el2belConvert_eq hperm (textEdges_edgesText hdelims ls hls) hsize.le
  have hnat : (UInt64.ofNat (edgesOf ls).length).toNat = (edgesOf ls).length :=
    UInt64.toNat_ofNat_of_lt' (by show _ < 2 ^ 64; omega)
  have hmapped := mappedEdges_edgeList (s := 0) (t := UInt64.ofNat (edgesOf ls).length) hsize
    (Nat.zero_le _) hnat.le
  have hall : ((edgesOf ls).drop (0 : UInt64).toNat).take
      ((edgesOf ls).length - (0 : UInt64).toNat) = edgesOf ls := List.take_length
  rw [hnat, hall] at hmapped
  refine ⟨_, _, hbel, numEdges_edgeList hne hsize, hmapped, ?_⟩
  intro numBatches hb hsum interleaving schedule sorted preInterleaving preSchedule
  obtain ⟨cs, hcs, hcount, hout⟩ := main_edgeList hne hsize (UInt64.le_iff_toNat_le.mp hb) hsum
    interleaving schedule sorted preInterleaving preSchedule
  have hlargest : largestId (edgesOf ls) ≤ 2 ^ 64 - 2 :=
    foldl_max_le (Nat.zero_le _) fun d hd => by
      have hlt := hids d hd
      omega
  exact ⟨cs, hcs, hcount, by rw [hcount]; omega, hout⟩

section Example

/-- The edges arrive backwards. -/
def backwards : Interleaving := ⟨List.reverse, id, List.reverse_perm, fun _ => .refl _⟩

/-- More batches than edges. -/
theorem main_ingests_text_four : ∃ file numVerts, el2belConvert List.reverse ',' '#'
      (GraphConvert.edgesText ',' '#' [.comment ['e'], .edge 2 0, .blank, .edge 2 3, .edge 0 1]) =
        some (file, numVerts) ∧
    ∃ cs, main file 0 4 (fun _ => backwards) (fun _ => .sequential) (fun _ => [2]) backwards
        .sequential = some cs ∧
      adjGraph.size (adjGraph.calls .new cs) = 4 := by
  obtain ⟨file, numVerts, hbel, -, -, hmain⟩ := main_ingests_text List.reverse List.reverse_perm
    ',' '#' delims_default [.comment ['e'], .edge 2 0, .blank, .edge 2 3, .edge 0 1]
    (by simp [EdgeLine.Ok]) (by decide) (by decide) (by decide)
  obtain ⟨cs, hcs, hcount, -⟩ := hmain 4 (by decide) (by decide) (fun _ => backwards)
    (fun _ => .sequential) (fun _ => [2]) backwards .sequential
  exact ⟨file, numVerts, hbel, cs, hcs, hcount⟩

end Example

end Microbench.EditScalabilityLarge
