import GraphLogSketch.Library.AtomicAdds
import GraphLogSketch.Library.PartialMaps
import GraphLogSketch.Library.Tiling
import GraphLogSketch.Scripts.EdgeListConvert

/-! Binary edge lists counted by virtual host: the records are split among goroutines, which raise the
counter of each source's virtual host. -/
namespace GraphConvert
open ByteWords TextStreams AtomicAdds Tiling PartialMaps
open scoped UInt64.CommRing

section Chunks
variable (indexes routines i : UInt64)

/-- Where a goroutine starts: the first ones get one record more. -/
def startInd : UInt64 :=
  let chunkSize := indexes / routines
  let remaining := indexes % routines
  let howManyAdds := if i < remaining then i else remaining
  chunkSize * i + howManyAdds

def endInd : UInt64 :=
  let chunkSize := indexes / routines
  let remaining := indexes % routines
  let endInd := startInd indexes routines i + chunkSize
  if i < remaining then endInd + 1 else endInd

end Chunks

/-- What a goroutine adds to the counters. -/
def countVhosts (srcFile : List UInt8) (vhosts startInd endInd : UInt64) :
    Option (List (UInt64 × UInt64)) :=
  (List.range' startInd.toNat (endInd.toNat - startInd.toNat)).mapM fun i => do
    let curr ← readU64At srcFile (UInt64.ofNat i * 2 * sizeofu64)
    if vhosts = 0 then none else return (curr % vhosts, 1)

/-- The counts when all goroutines have ended; their additions arrive in any order. -/
def vhostDist (arrive : List (UInt64 × UInt64) → List (UInt64 × UInt64))
    (inputFile : List UInt8) (vhosts routines : UInt64) : Option (List UInt64) := do
  let sz := UInt64.ofNat inputFile.length
  let sz := sz - sz % sizeofu64
  let indexes := sz / (2 * sizeofu64)
  if routines = 0 then none
  else
    let adds ← (List.range routines.toNat).mapM fun i =>
      countVhosts inputFile vhosts (startInd indexes routines (UInt64.ofNat i))
        (endInd indexes routines (UInt64.ofNat i))
    let counts := addAll (arrive adds.flatten) fun _ => 0
    return (List.range vhosts.toNat).map fun i => counts (UInt64.ofNat i)

/-- The text that the converter writes. -/
def bel2vdlConvert (arrive : List (UInt64 × UInt64) → List (UInt64 × UInt64))
    (inputFile : List UInt8) (vhosts routines : UInt64) : Option (List Char) := do
  let vhostDist ← vhostDist arrive inputFile vhosts routines
  return vhostDist.flatMap fun v => digits v ++ ['\n']

/-- The number of records whose source belongs to a virtual host. -/
def vhostCount (es : List (UInt64 × UInt64)) (vhosts h : ℕ) : ℕ :=
  es.countP fun e => e.1.toNat % vhosts = h

/-- A line for each virtual host. -/
def vhostText (es : List (UInt64 × UInt64)) (vhosts : ℕ) : List Char :=
  (List.range vhosts).flatMap fun h => Nat.toDigits 10 (vhostCount es vhosts h) ++ ['\n']

section Chunks
variable {routines : UInt64} {i : ℕ}

theorem lt_remaining (indexes : UInt64) (hi : i < routines.toNat) :
    UInt64.ofNat i < indexes % routines ↔ i < indexes.toNat % routines.toNat := by
  rw [UInt64.lt_iff_toNat_lt, UInt64.toNat_mod,
    UInt64.toNat_ofNat_of_lt' (hi.trans routines.toNat_lt)]

/-- The goroutines have the intervals of an even split. -/
theorem startInd_toNat (indexes : UInt64) (hroutines : 0 < routines.toNat)
    (hi : i < routines.toNat) : (startInd indexes routines (UInt64.ofNat i)).toNat =
      firstOf indexes.toNat routines.toNat i := by
  have hnat : (UInt64.ofNat i).toNat = i :=
    UInt64.toNat_ofNat_of_lt' (hi.trans routines.toNat_lt)
  have hlt := (firstOf_le (n := indexes.toNat) hroutines hi.le).trans_lt indexes.toNat_lt
  have hadds : (if UInt64.ofNat i < indexes % routines then UInt64.ofNat i
      else indexes % routines).toNat =
        if i < indexes.toNat % routines.toNat then i else indexes.toNat % routines.toNat := by
    simp only [lt_remaining indexes hi]
    split_ifs
    · exact hnat
    · exact UInt64.toNat_mod ..
  unfold startInd
  dsimp only
  rw [UInt64.toNat_add, UInt64.toNat_mul, hadds, UInt64.toNat_div, hnat, Nat.mod_add_mod,
    firstOf_eq, Nat.mod_eq_of_lt hlt]

theorem endInd_toNat (indexes : UInt64) (hroutines : 0 < routines.toNat)
    (hi : i < routines.toNat) : (endInd indexes routines (UInt64.ofNat i)).toNat =
      firstOf indexes.toNat routines.toNat (i + 1) := by
  have hindexes := indexes.toNat_lt
  have hnext := firstOf_le (n := indexes.toNat) hroutines (show i + 1 ≤ routines.toNat from hi)
  rw [firstOf_succ, share] at hnext ⊢
  unfold endInd
  dsimp only
  simp only [lt_remaining indexes hi]
  split_ifs with h
  · rw [if_pos h] at hnext
    rw [UInt64.toNat_add, UInt64.toNat_add, startInd_toNat indexes hroutines hi, UInt64.toNat_div]
    show ((_ + _) % 2 ^ 64 + 1) % 2 ^ 64 = _
    rw [Nat.mod_add_mod, Nat.mod_eq_of_lt (by omega), Nat.add_assoc]
  · rw [if_neg h] at hnext
    rw [UInt64.toNat_add, startInd_toNat indexes hroutines hi, UInt64.toNat_div,
      Nat.mod_eq_of_lt (by omega)]

end Chunks

section Counts
variable {file : List UInt8} {es : List (UInt64 × UInt64)} {vhosts routines : UInt64}

/-- The virtual hosts of some sources. -/
def vhostsOf (es : List (UInt64 × UInt64)) (vhosts : UInt64) : List UInt64 :=
  es.map fun e => e.1 % vhosts

@[simp] theorem wholeEdges_length (file : List UInt8) :
    (wholeEdges file).length = file.length / 16 := by
  rw [wholeEdges, List.length_map, List.length_range]

/-- A goroutine adds one for each record of its interval. -/
theorem countVhosts_eq (hsize : file.length < 2 ^ 63) (hvhosts : vhosts ≠ 0)
    {low high : UInt64} (hle : low.toNat ≤ high.toNat) (hhigh : high.toNat ≤ file.length / 16) :
    countVhosts file vhosts low high =
      some ((vhostsOf (((wholeEdges file).drop low.toNat).take (high.toNat - low.toNat)) vhosts).map
        fun h => (h, 1)) := by
  have hread : ∀ i ∈ List.range' low.toNat (high.toNat - low.toNat),
      (do let curr ← readU64At file (UInt64.ofNat i * 2 * sizeofu64)
          if vhosts = 0 then none else return (curr % vhosts, (1 : UInt64))) =
        some ((edgeAt file i).1 % vhosts, 1) := by
    intro i hi
    obtain ⟨j, hj, rfl⟩ := List.mem_range'.mp hi
    rw [readU64At_edgeAt hsize (by omega)]
    simp [hvhosts]
  unfold countVhosts
  refine (mapM_eq_some hread).trans (congrArg some ?_)
  apply List.ext_getElem
  · simp [vhostsOf]
    omega
  · intro k _ _
    simp [vhostsOf, wholeEdges]

/-- All goroutines together add one for each record. -/
theorem mapM_countVhosts (hsize : file.length < 2 ^ 63) (hvhosts : vhosts ≠ 0)
    (hroutines : 0 < routines.toNat) :
    ∃ adds, (List.range routines.toNat).mapM (fun i => countVhosts file vhosts
        (startInd (UInt64.ofNat (file.length / 16)) routines (UInt64.ofNat i))
        (endInd (UInt64.ofNat (file.length / 16)) routines (UInt64.ofNat i))) = some adds ∧
      adds.flatten = (vhostsOf (wholeEdges file) vhosts).map fun h => (h, 1) := by
  set indexes := file.length / 16 with hindexes
  have hnat : (UInt64.ofNat indexes).toNat = indexes :=
    UInt64.toNat_ofNat_of_lt' (by show indexes < 2 ^ 64; omega)
  set low := firstOf indexes routines.toNat with hlow
  have hstep (i : ℕ) : low i ≤ low (i + 1) := by
    rw [hlow, firstOf_succ]
    exact Nat.le_add_right ..
  have hcount : ∀ i ∈ List.range routines.toNat, countVhosts file vhosts
      (startInd (UInt64.ofNat indexes) routines (UInt64.ofNat i))
      (endInd (UInt64.ofNat indexes) routines (UInt64.ofNat i)) =
        some ((vhostsOf (((wholeEdges file).drop (low i)).take (low (i + 1) - low i)) vhosts).map
          fun h => (h, 1)) := by
    intro i hi
    have hi := List.mem_range.mp hi
    have hstart := startInd_toNat (UInt64.ofNat indexes) hroutines hi
    have hend := endInd_toNat (UInt64.ofNat indexes) hroutines hi
    rw [hnat] at hstart hend
    have hhigh : low (i + 1) ≤ indexes := firstOf_le hroutines hi
    rw [countVhosts_eq hsize hvhosts (by rw [hstart, hend]; exact hstep i)
      (by rw [hend]; exact hhigh), hstart, hend]
  refine ⟨_, mapM_eq_some hcount, ?_⟩
  have hslices := flatMap_slices (k := routines.toNat) low (wholeEdges file) (firstOf_zero _ _)
    fun i _ => hstep i
  have hall : (wholeEdges file).take indexes = wholeEdges file :=
    List.take_of_length_le (wholeEdges_length file).le
  rw [hlow, firstOf_all hroutines, hall, ← hlow] at hslices
  rw [← List.flatMap_def, vhostsOf, List.map_map]
  conv_rhs => rw [← hslices, List.map_flatMap]
  congr 1
  funext i
  rw [vhostsOf, List.map_map]

/-- The counter of a virtual host. -/
theorem received_vhostsOf (es : List (UInt64 × UInt64)) {h : ℕ} (hh : h < vhosts.toNat) :
    received ((vhostsOf es vhosts).map fun v => (v, 1)) (UInt64.ofNat h) =
      UInt64.ofNat (vhostCount es vhosts.toNat h) := by
  have hnat : (UInt64.ofNat h).toNat = h := UInt64.toNat_ofNat_of_lt' (hh.trans vhosts.toNat_lt)
  have hcount : (vhostsOf es vhosts).count (UInt64.ofNat h) = vhostCount es vhosts.toNat h := by
    rw [vhostsOf, List.count_eq_countP, List.countP_map, vhostCount]
    apply List.countP_congr
    intro e _
    simp [← UInt64.toNat_inj, hnat]
  rw [received_ones, hcount]
  rfl

/-- The order in which the additions arrive does not show in the text. -/
theorem bel2vdlConvert_eq {arrive : List (UInt64 × UInt64) → List (UInt64 × UInt64)}
    (harrive : ∀ adds, (arrive adds).Perm adds) (hsize : file.length < 2 ^ 63)
    (hvhosts : vhosts ≠ 0) (hroutines : routines ≠ 0) :
    bel2vdlConvert arrive file vhosts routines =
      some (vhostText (wholeEdges file) vhosts.toNat) := by
  have hpos : 0 < routines.toNat :=
    Nat.pos_of_ne_zero fun hzero => hroutines (UInt64.toNat_inj.mp hzero)
  obtain ⟨adds, hadds, hflat⟩ := mapM_countVhosts hsize hvhosts hpos
  unfold bel2vdlConvert vhostDist
  dsimp only
  rw [(wholeSize_toNat hsize).2, if_neg hroutines, hadds]
  simp only [Option.bind_eq_bind, Option.bind_some, Option.pure_def, List.flatMap_map]
  rw [hflat, addAll_perm (harrive _), vhostText]
  congr 1
  apply List.flatMap_congr
  intro h hh
  have hcount : vhostCount (wholeEdges file) vhosts.toNat h ≤ (wholeEdges file).length :=
    List.countP_le_length
  rw [wholeEdges_length] at hcount
  rw [addAll_apply, received_vhostsOf _ (List.mem_range.mp hh), zero_add, digits,
    UInt64.toNat_ofNat_of_lt' (by show _ < 2 ^ 64; omega)]

end Counts

/-- Line `h` is the number of records whose source is congruent to `h`, and the goroutines have
consecutive intervals of nearly equal size. -/
theorem bel2vdlConvert_counts (arrive : List (UInt64 × UInt64) → List (UInt64 × UInt64))
    (harrive : ∀ adds, (arrive adds).Perm adds) (es : List (UInt64 × UInt64))
    (hsize : 16 * es.length < 2 ^ 63) (vhosts routines : UInt64) (hvhosts : 1 ≤ vhosts)
    (hroutines : 1 ≤ routines) :
    bel2vdlConvert arrive (edgeList es) vhosts routines = some (vhostText es vhosts.toNat) ∧
      let low (i : ℕ) := (startInd (UInt64.ofNat es.length) routines (UInt64.ofNat i)).toNat
      let size (i : ℕ) := (endInd (UInt64.ofNat es.length) routines (UInt64.ofNat i)).toNat - low i
      (List.range routines.toNat).flatMap (fun i => List.range' (low i) (size i)) =
        List.range es.length ∧
      ∀ i < routines.toNat, ∀ j < routines.toNat, size i ≤ size j + 1 := by
  have hpos : 0 < routines.toNat := UInt64.le_iff_toNat_le.mp hroutines
  have hne {n : UInt64} (h : 1 ≤ n) : n ≠ 0 := by
    rintro rfl
    exact absurd h (by decide)
  have hfile : (edgeList es).length < 2 ^ 63 := by rwa [edgeList_length]
  have htext := bel2vdlConvert_eq harrive hfile (hne hvhosts) (hne hroutines)
  rw [wholeEdges_edgeList] at htext
  refine ⟨htext, ?_⟩
  intro low size
  have hnat : (UInt64.ofNat es.length).toNat = es.length :=
    UInt64.toNat_ofNat_of_lt' (by show es.length < 2 ^ 64; omega)
  have hbounds {i : ℕ} (hi : i < routines.toNat) : low i = firstOf es.length routines.toNat i ∧
      size i = share es.length routines.toNat i := by
    have hstart := startInd_toNat (UInt64.ofNat es.length) hpos hi
    have hend := endInd_toNat (UInt64.ofNat es.length) hpos hi
    rw [hnat] at hstart hend
    refine ⟨hstart, ?_⟩
    show (endInd _ _ _).toNat - (startInd _ _ _).toNat = _
    rw [hstart, hend, firstOf_succ, Nat.add_sub_cancel_left]
  constructor
  · rw [← flatMap_shares es.length hpos]
    apply List.flatMap_congr
    intro i hi
    obtain ⟨hlow, hsize⟩ := hbounds (List.mem_range.mp hi)
    rw [hlow, hsize]
  · intro i hi j hj
    rw [(hbounds hi).2, (hbounds hj).2]
    unfold share
    split_ifs <;> omega

/-- Three records, five goroutines, and additions that arrive backwards. -/
theorem bel2vdlConvert_counts_three :
    bel2vdlConvert List.reverse (edgeList [(4, 0), (7, 7), (2, 1)]) 3 5 =
      some ['0', '\n', '2', '\n', '1', '\n'] :=
  (bel2vdlConvert_counts List.reverse List.reverse_perm [(4, 0), (7, 7), (2, 1)] (by decide) 3 5
    (by decide) (by decide)).1.trans (by decide)

end GraphConvert
