import GraphLogSketch.Library.SignificantBits
import GraphLogSketch.Microbench.EditScalabilityLarge

/-! The share of the edges that the benchmark for large graphs ingests before its batches: a 64-bit
count times a single-precision fraction. -/
namespace Microbench.EditScalabilityLarge
open SignificantBits Tiling

/-- The fractions from zero to one that a single-precision number can have. -/
structure PreIngest where
  value : ℚ
  representable : Representable 24 value
  le_one : value ≤ 1

/-- The count is converted to single precision, and the product is rounded again. -/
def numEdgesToPreIngest (numEdges : UInt64) (preIngest : PreIngest) : UInt64 :=
  UInt64.ofNat ⌊roundBits 24 (roundBits 24 numEdges.toNat * preIngest.value)⌋₊

/-- What a pre-ingest count should be: its range is in the file, and the batches continue it up to the
last edge. -/
structure Splits (file : List UInt8) (numEdges count : UInt64) : Prop where
  le : count ≤ numEdges
  mapped : (mappedEdges file 0 count).isSome
  rest : (numEdges - count).toNat = numEdges.toNat - count.toNat
  tiles : ∀ numBatches : UInt64, 1 ≤ numBatches →
    numEdges.toNat + (numBatches.toNat - 1) < 2 ^ 64 →
      (List.range count.toNat ++ (List.range numBatches.toNat).flatMap fun i =>
        List.range' (startEdge count numBatches numEdges (UInt64.ofNat i)).toNat
          ((endEdge count numBatches numEdges (UInt64.ofNat i)).toNat -
            (startEdge count numBatches numEdges (UInt64.ofNat i)).toNat)) =
        List.range numEdges.toNat

section Count
variable {file : List UInt8} {n count : UInt64}

theorem numEdges_bounds (hfile : numEdges file = some n) :
    n.toNat < 2 ^ 60 ∧ 16 * n.toNat ≤ file.length := by
  unfold numEdges at hfile
  dsimp only at hfile
  split_ifs at hfile
  obtain rfl := Option.some.inj hfile
  have hlt := (UInt64.ofNat file.length).toNat_lt
  have hle : (UInt64.ofNat file.length).toNat ≤ file.length := by
    rw [UInt64.toNat_ofNat']
    exact Nat.mod_le _ _
  rw [UInt64.toNat_div]
  show _ / 16 < _ ∧ 16 * (_ / 16) ≤ _
  omega

/-- A range in front of the file can be mapped. -/
theorem mappedEdges_front (hlt : count.toNat < 2 ^ 60) (hlen : 16 * count.toNat ≤ file.length) :
    (mappedEdges file 0 count).isSome := by
  have hsize : (count * sizeofEdge).toNat = count.toNat * 16 := by
    rw [UInt64.toNat_mul]
    show count.toNat * 16 % 2 ^ 64 = _
    omega
  have hspan : count * sizeofEdge / sizeofEdge = count := by
    rw [← UInt64.toNat_inj, UInt64.toNat_div, hsize]
    exact Nat.mul_div_cancel _ (by decide)
  have hzero : (0 * sizeofEdge).toNat = 0 := by decide
  unfold mappedEdges
  dsimp only
  rw [UInt64.sub_zero, hsize, hzero, if_pos ⟨by omega, hspan⟩]
  rfl

/-- The pre-ingest range is the first of the intervals that the batches continue. -/
theorem preIngest_tiles (count b : ℕ) {n : ℕ} (hle : count ≤ n) (hb : 0 < b) :
    (List.range count ++ (List.range b).flatMap fun i =>
      List.range' (count + blockStart (n - count) b i)
        (count + blockStart (n - count) b (i + 1) - (count + blockStart (n - count) b i))) =
      List.range n := by
  let low : ℕ → ℕ
    | 0 => 0
    | i + 1 => count + blockStart (n - count) b i
  have htile := Tiling.flatMap_range' (k := b + 1) low rfl (by
    rintro (_ | i) -
    · exact Nat.zero_le _
    · exact Nat.add_le_add_left (blockStart_mono _ _ i) _)
  have hfirst : low 1 = count := by
    show _ + blockStart _ _ 0 = _
    rw [blockStart_zero, Nat.add_zero]
  have hlast : low (b + 1) = n := by
    show _ + blockStart _ _ _ = _
    rw [blockStart_all hb]
    omega
  rw [hlast, List.range_succ_eq_map, List.flatMap_cons, List.flatMap_map, hfirst,
    Nat.sub_zero, ← List.range_eq_range'] at htile
  exact htile

/-- A count of no more than all edges is as it should be. -/
theorem splits_of_le (hfile : numEdges file = some n) (hle : count ≤ n) : Splits file n count := by
  obtain ⟨hlt, hlen⟩ := numEdges_bounds hfile
  have hnat := UInt64.le_iff_toNat_le.mp hle
  constructor
  case le => exact hle
  case rest => exact UInt64.toNat_sub_of_le _ _ hle
  case mapped => exact mappedEdges_front (by omega) (by omega)
  case tiles =>
    intro numBatches hb hsum
    have hb := UInt64.le_iff_toNat_le.mp hb
    rw [← preIngest_tiles count.toNat numBatches.toNat hnat hb]
    congr 1
    apply List.flatMap_congr
    intro i hi
    have hi := List.mem_range.mp hi
    rw [endEdge_ofNat, startEdge_preIngest hle hb hi.le hsum, startEdge_preIngest hle hb hi hsum]

end Count

/-- The pre-ingest count is as it should be unless all edges are asked for and their number is rounded
up. -/
theorem numEdgesToPreIngest_splits_iff (file : List UInt8) (n : UInt64)
    (hfile : numEdges file = some n) (preIngest : PreIngest) :
    Splits file n (numEdgesToPreIngest n preIngest) ↔
      preIngest.value < 1 ∨ roundBits 24 n.toNat ≤ n.toNat := by
  have hn : (0 : ℚ) ≤ n.toNat := Nat.cast_nonneg _
  constructor
  · intro h
    by_contra hcond
    obtain ⟨hone, hup⟩ := not_or.mp hcond
    have hone : preIngest.value = 1 := le_antisymm preIngest.le_one (not_lt.mp hone)
    obtain ⟨m, hm⟩ := roundBits_natCast (p := 24) (by decide) n.toNat
    have hall : roundBits 24 n.toNat ≤ (2 : ℚ) ^ (60 : ℤ) := by
      apply roundBits_le (representable_two_zpow (by decide) 60) hn
      exact_mod_cast (numEdges_bounds hfile).1.le
    have hagain := roundBits_eq_self (by decide) (representable_roundBits (p := 24) (by decide) hn)
    have hcount := UInt64.le_iff_toNat_le.mp h.le
    have hm' : m ≤ 2 ^ 60 := by
      rw [hm] at hall
      exact_mod_cast hall
    rw [numEdgesToPreIngest, hone, mul_one, hagain, hm, Nat.floor_natCast,
      UInt64.toNat_ofNat_of_lt' (by show m < 2 ^ 64; omega)] at hcount
    apply hup
    rw [hm]
    exact_mod_cast hcount
  · intro hcond
    have hle : roundBits 24 (roundBits 24 n.toNat * preIngest.value) ≤ n.toNat := by
      rcases hcond with hlt | hdown
      · exact roundBits_mul_le_of_lt_one (by decide) hn preIngest.representable hlt
      · exact roundBits_mul_le_of_le (by decide) hn hdown preIngest.representable.nonneg
          preIngest.le_one
    apply splits_of_le hfile
    have hfloor := Nat.floor_le_of_le hle
    rw [UInt64.le_iff_toNat_le, numEdgesToPreIngest,
      UInt64.toNat_ofNat_of_lt' (hfloor.trans_lt n.toNat_lt)]
    exact hfloor

section Example

/-- The whole file is ingested before the batches. -/
def PreIngest.all : PreIngest := ⟨1, representable_natCast (m := 1) (by decide), le_rfl⟩

/-- A file with three edges more than single precision counts one by one. -/
def roundedUpFile : List UInt8 := List.replicate 268435504 0

theorem numEdges_roundedUpFile : numEdges roundedUpFile = some 16777219 := by
  have hlen : roundedUpFile.length = 268435504 := List.length_replicate
  have hne : roundedUpFile ≠ [] := List.ne_nil_of_length_pos (by rw [hlen]; decide)
  unfold numEdges
  rw [hlen]
  exact if_pos ⟨hne, by decide⟩

theorem roundBits_roundedUp : roundBits 24 16777219 = 16777220 := by
  have hlast : lastBit 24 16777219 = 1 := lastBit_eq 24 (by norm_num) (by norm_num)
  have hfloor : ⌊(16777219 / 2 : ℚ)⌋ = 8388609 := Int.floor_eq_iff.mpr (by norm_num)
  -- a tie between an odd and an even integer
  have hround : nearestEven (16777219 / 2) = 8388610 := by
    unfold nearestEven Int.fract
    rw [hfloor, if_neg]
    · norm_num
    · rintro (hlt | ⟨-, heven⟩)
      · norm_num at hlt
      · exact absurd heven (by decide)
  rw [roundBits, hlast, zpow_one, hround]
  norm_num

/-- With half of the edges the rounding does no harm. -/
theorem numEdgesToPreIngest_splits_iff_half :
    Splits roundedUpFile 16777219
      (numEdgesToPreIngest 16777219 ⟨1 / 2, ⟨1, -1, by decide, by norm_num⟩, by norm_num⟩) :=
  (numEdgesToPreIngest_splits_iff roundedUpFile 16777219 numEdges_roundedUpFile _).mpr
    (Or.inl (by norm_num))

/-- One edge more is asked for than the file has. -/
theorem numEdgesToPreIngest_roundedUp : numEdges roundedUpFile = some 16777219 ∧
    numEdgesToPreIngest 16777219 .all = 16777220 ∧
    (16777219 : UInt64) - numEdgesToPreIngest 16777219 .all = 18446744073709551615 ∧
    ¬ Splits roundedUpFile 16777219 (numEdgesToPreIngest 16777219 .all) := by
  have hagain : roundBits 24 16777220 = 16777220 :=
    roundBits_eq_self (by decide) ⟨8388610, 1, by decide, by norm_num⟩
  have hcount : numEdgesToPreIngest 16777219 .all = 16777220 := by
    have hnat : ((16777219 : UInt64).toNat : ℚ) = 16777219 := by
      rw [show (16777219 : UInt64).toNat = 16777219 from rfl]
      norm_num
    have hfloor : ⌊(16777220 : ℚ)⌋₊ = 16777220 := Nat.floor_ofNat _
    rw [numEdgesToPreIngest, hnat, roundBits_roundedUp, PreIngest.all, mul_one, hagain, hfloor]
    rfl
  refine ⟨numEdges_roundedUpFile, hcount, by rw [hcount]; decide, fun h => ?_⟩
  have hle := h.le
  rw [hcount] at hle
  exact absurd hle (by decide)

end Example

end Microbench.EditScalabilityLarge
