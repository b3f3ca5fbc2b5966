import GraphLogSketch.Library.PositionalWrites

/-! `shufbel` shuffles a binary edge list: one goroutine a page gathers the records that a permutation
of the indices sends there and writes the page. `GetIndex` is a parameter. -/
namespace Shufbel
open Compaction PositionalWrites

/-- The 16 bytes of edge `j`. -/
def record (file : List UInt8) (j : ℕ) : List UInt8 := (file.drop (16 * j)).take 16

def records (file : List UInt8) : List (List UInt8) :=
  (List.range (file.length / 16)).map (record file)

/-- The first edges of the pages. -/
def pages (numEdges pageSize : ℕ) : List ℕ :=
  (List.range ((numEdges + pageSize / 16 - 1) / (pageSize / 16))).map fun p => p * (pageSize / 16)

/-- The first `n` records a goroutine gathers from edge `i` on, in a page of zeros. -/
def gather (data : List UInt8) (getIndex : ℕ → ℕ → ℕ) (numEdges pageSize i n : ℕ) : List UInt8 :=
  (List.range n).foldl
    (fun output k => copyAt output (16 * k) (record data (getIndex (i + k) numEdges)))
    (List.replicate pageSize 0)

/-- The goroutine of the page at edge `i` stops at the last edge but writes its whole buffer. -/
def page (data : List UInt8) (getIndex : ℕ → ℕ → ℕ) (pageSize i : ℕ) : Write :=
  let numEdges := data.length / 16
  ⟨i * 16, gather data getIndex numEdges pageSize i (min (pageSize / 16) (numEdges - i))⟩

/-- The output file after all goroutines, which write their pages in some order; `none` when the
input is refused. -/
def main (data : List UInt8) (pageSize : ℕ) (getIndex : ℕ → ℕ → ℕ) (order : List ℕ)
    (oldOutput : List UInt8) : Option (List UInt8) :=
  if data.length = 0 ∨ data.length % 16 ≠ 0 then none
  else some (apply (order.map (page data getIndex pageSize)) (resize oldOutput 0 data.length))

/-- The output is as long as the input and holds the same records in some order. -/
def Shuffles (data output : List UInt8) : Prop :=
  output.length = data.length ∧ (records output).Perm (records data)

instance (data output : List UInt8) : Decidable (Shuffles data output) := by
  unfold Shuffles
  infer_instance

variable {data : List UInt8} {getIndex : ℕ → ℕ → ℕ} {numEdges pageSize i j n : ℕ}
  {order : List ℕ}

theorem record_getElem? (file : List UInt8) (j : ℕ) {r : ℕ} (hr : r < 16) :
    (record file j)[r]? = file[16 * j + r]? := by
  rw [record, List.getElem?_take_of_lt hr, List.getElem?_drop]

theorem record_length {file : List UInt8} (h : 16 * j + 16 ≤ file.length) :
    (record file j).length = 16 := by
  rw [record, List.length_take, List.length_drop]
  omega

/-- Each gathered record stands in its slot. -/
theorem gather_getElem? (hsize : 16 * numEdges ≤ data.length) (hn : 16 * n ≤ pageSize)
    (hget : ∀ k < n, getIndex (i + k) numEdges < numEdges) :
    (gather data getIndex numEdges pageSize i n).length = pageSize ∧
      ∀ x < 16 * n, (gather data getIndex numEdges pageSize i n)[x]? =
        data[16 * getIndex (i + x / 16) numEdges + x % 16]? := by
  induction n with
  | zero => exact ⟨List.length_replicate, fun x hx => absurd hx (Nat.not_lt_zero x)⟩
  | succ n ih =>
    obtain ⟨hlen, hslots⟩ := ih (by omega) fun k hk => hget k (Nat.lt_succ_of_lt hk)
    have hlast := hget n (Nat.lt_succ_self n)
    have hrecord : (record data (getIndex (i + n) numEdges)).length = 16 :=
      record_length (by omega)
    have hfit : 16 * n + (record data (getIndex (i + n) numEdges)).length ≤
        (gather data getIndex numEdges pageSize i n).length := by
      rw [hlen, hrecord]
      omega
    have hstep : gather data getIndex numEdges pageSize i (n + 1) =
        copyAt (gather data getIndex numEdges pageSize i n) (16 * n)
          (record data (getIndex (i + n) numEdges)) := by
      rw [gather, List.range_succ, List.foldl_append]
      rfl
    rw [hstep, copyAt_length hfit]
    refine ⟨hlen, fun x hx => ?_⟩
    rw [copyAt_getElem? hfit, hrecord]
    by_cases hlow : x < 16 * n
    · rw [if_neg (by omega), hslots x hlow]
    · have hslot : x / 16 = n := by omega
      have hrem : x - 16 * n = x % 16 := by omega
      rw [if_pos ⟨by omega, by omega⟩, hrem, record_getElem? _ _ (Nat.mod_lt x (by decide)), hslot]

section Pages

/-- Every edge lies on a page. -/
theorem exists_page (hpage : 0 < pageSize / 16) (hj : j < numEdges) :
    ∃ i ∈ pages numEdges pageSize, i ≤ j ∧ j < i + pageSize / 16 := by
  have hdiv := Nat.div_add_mod j (pageSize / 16)
  have hmod := Nat.mod_lt j hpage
  have hle := Nat.div_mul_le_self j (pageSize / 16)
  refine ⟨j / (pageSize / 16) * (pageSize / 16), List.mem_map.mpr ⟨_, List.mem_range.mpr ?_, rfl⟩,
    hle, ?_⟩
  · rw [Nat.lt_iff_add_one_le, Nat.le_div_iff_mul_le hpage, Nat.succ_mul]
    omega
  · rw [Nat.mul_comm]
    omega

/-- Pages begin within the edges. -/
theorem page_lt (hpage : 0 < pageSize / 16) (hi : i ∈ pages numEdges pageSize) : i < numEdges := by
  obtain ⟨p, hp, rfl⟩ := List.mem_map.mp hi
  have hp := (Nat.le_div_iff_mul_le hpage).mp (List.mem_range.mp hp)
  rw [Nat.succ_mul] at hp
  omega

/-- A page has its whole size, and the bytes of its edges are those of the records gathered. -/
theorem page_bytes (pageSize : ℕ) (hsize : 16 * (data.length / 16) = data.length)
    (hget : ∀ j < data.length / 16, getIndex j (data.length / 16) < data.length / 16)
    (hi : i < data.length / 16) :
    (page data getIndex pageSize i).stop = i * 16 + pageSize ∧
      ∀ b, i ≤ b / 16 → b / 16 < i + pageSize / 16 → b < data.length →
        (page data getIndex pageSize i).byte b =
          data.getD (16 * getIndex (b / 16) (data.length / 16) + b % 16) 0 := by
  have hcount (k : ℕ) (hk : k < min (pageSize / 16) (data.length / 16 - i)) :
      getIndex (i + k) (data.length / 16) < data.length / 16 :=
    hget (i + k) (by have := hk.trans_le (min_le_right _ _); omega)
  obtain ⟨hlen, hslots⟩ := gather_getElem? hsize.le
    (show 16 * min (pageSize / 16) (data.length / 16 - i) ≤ pageSize by omega) hcount
  refine ⟨congrArg (i * 16 + ·) hlen, fun b hlow hhigh hb => ?_⟩
  have hslot := hslots (b - i * 16) (by omega)
  have hedge : i + (b - i * 16) / 16 = b / 16 := by omega
  have hrem : (b - i * 16) % 16 = b % 16 := by omega
  rw [hedge, hrem] at hslot
  show (gather ..).getD (b - i * 16) 0 = _
  rw [List.getD_eq_getElem?_getD, List.getD_eq_getElem?_getD, hslot]

end Pages

section Output
variable (h16 : data.length % 16 = 0) (hpage : 0 < pageSize)
  (hpage16 : pageSize % 16 = 0)
  (hget : ∀ j < data.length / 16, getIndex j (data.length / 16) < data.length / 16)
  (horder : order.Perm (pages (data.length / 16) pageSize))
include h16 hpage hpage16 hget horder

/-- Every byte of an edge comes from the record its index is sent to. -/
theorem output_getD (oldOutput : List UInt8) {b : ℕ} (hb : b < data.length) :
    (apply (order.map (page data getIndex pageSize)) (resize oldOutput 0 data.length)).getD b 0 =
      data.getD (16 * getIndex (b / 16) (data.length / 16) + b % 16) 0 := by
  have hpage' : 0 < pageSize / 16 := by omega
  apply apply_getD_of_agree
  · intro w hw hc
    obtain ⟨i, hi, rfl⟩ := List.mem_map.mp hw
    have hi := page_lt hpage' (horder.mem_iff.mp hi)
    obtain ⟨hstop, hbytes⟩ := page_bytes pageSize (by omega) hget hi
    obtain ⟨hlow, hhigh⟩ := hc
    have hlow : i * 16 ≤ b := hlow
    rw [hstop] at hhigh
    exact hbytes b (by omega) (by omega) hb
  · obtain ⟨i, hi, hlow, hhigh⟩ :=
      exists_page hpage' (show b / 16 < data.length / 16 by omega)
    obtain ⟨hstop, -⟩ := page_bytes pageSize (by omega) hget (page_lt hpage' hi)
    refine Or.inr ⟨_, List.mem_map.mpr ⟨i, horder.mem_iff.mpr hi, rfl⟩, ?_, ?_⟩
    · show i * 16 ≤ b
      omega
    · rw [hstop]
      omega

/-- The last page is written whole. -/
theorem output_length (oldOutput : List UInt8) (hpos : 0 < data.length) :
    (apply (order.map (page data getIndex pageSize)) (resize oldOutput 0 data.length)).length =
      (pages (data.length / 16) pageSize).length * pageSize := by
  have hpage' : 0 < pageSize / 16 := by omega
  have hsize : pageSize = pageSize / 16 * 16 := by omega
  have hstop (p : ℕ) (hp : p < (pages (data.length / 16) pageSize).length) :
      p * (pageSize / 16) ∈ pages (data.length / 16) pageSize ∧
        (page data getIndex pageSize (p * (pageSize / 16))).stop = (p + 1) * pageSize := by
    have hmem : p * (pageSize / 16) ∈ pages (data.length / 16) pageSize :=
      List.mem_map.mpr ⟨p, by simpa [pages] using hp, rfl⟩
    refine ⟨hmem, (page_bytes pageSize (by omega) hget (page_lt hpage' hmem)).1.trans ?_⟩
    rw [Nat.mul_assoc, ← hsize, Nat.succ_mul]
  have hcount : (pages (data.length / 16) pageSize).length =
      (data.length / 16 + pageSize / 16 - 1) / (pageSize / 16) := by
    rw [pages, List.length_map, List.length_range]
  have hcover : data.length / 16 ≤
      (pages (data.length / 16) pageSize).length * (pageSize / 16) := by
    have hdiv := Nat.div_add_mod (data.length / 16 + pageSize / 16 - 1) (pageSize / 16)
    have hmod := Nat.mod_lt (data.length / 16 + pageSize / 16 - 1) hpage'
    rw [hcount, Nat.mul_comm]
    omega
  have hlast : 0 < (pages (data.length / 16) pageSize).length := by
    rcases Nat.eq_zero_or_pos (pages (data.length / 16) pageSize).length with h0 | hlast
    · rw [h0, Nat.zero_mul] at hcover
      omega
    · exact hlast
  apply le_antisymm
  · apply apply_length_le
    · have hmul : (pages (data.length / 16) pageSize).length * pageSize =
          (pages (data.length / 16) pageSize).length * (pageSize / 16) * 16 := by
        rw [Nat.mul_assoc, ← hsize]
      rw [resize_length, hmul]
      omega
    · intro w hw
      obtain ⟨i, hi, rfl⟩ := List.mem_map.mp hw
      obtain ⟨p, hp, rfl⟩ := List.mem_map.mp (horder.mem_iff.mp hi)
      have hp : p < (pages (data.length / 16) pageSize).length := by simpa [pages] using hp
      rw [(hstop p hp).2]
      exact Nat.mul_le_mul_right pageSize hp
  · obtain ⟨hmem, hend⟩ := hstop _ (Nat.sub_lt hlast Nat.one_pos)
    rw [Nat.sub_add_cancel hlast] at hend
    rw [← hend]
    exact stop_le_apply (List.mem_map.mpr ⟨_, horder.mem_iff.mpr hmem, rfl⟩) _

/-- With whole pages only, each record of the output is the one its index is sent to. -/
theorem output_records {oldOutput : List UInt8}
    (hlen : (apply (order.map (page data getIndex pageSize))
      (resize oldOutput 0 data.length)).length = data.length) :
    records (apply (order.map (page data getIndex pageSize)) (resize oldOutput 0 data.length)) =
      (List.range (data.length / 16)).map fun j =>
        record data (getIndex j (data.length / 16)) := by
  rw [records, hlen]
  apply List.map_congr_left
  intro j hj
  have hj := List.mem_range.mp hj
  have hsrc := hget j hj
  apply List.ext_getElem?
  intro r
  by_cases hr : r < 16
  · have hbyte := output_getD h16 hpage hpage16 hget horder oldOutput
      (show 16 * j + r < data.length by omega)
    have hedge : (16 * j + r) / 16 = j := by omega
    have hrem : (16 * j + r) % 16 = r := by omega
    rw [hedge, hrem, List.getD_eq_getElem?_getD, List.getD_eq_getElem?_getD] at hbyte
    rw [record_getElem? _ _ hr, record_getElem? _ _ hr]
    rw [List.getElem?_eq_getElem (by omega), List.getElem?_eq_getElem (by omega)] at hbyte ⊢
    exact congrArg some hbyte
  · rw [List.getElem?_eq_none, List.getElem?_eq_none]
    · rw [record_length (by omega)]
      omega
    · rw [record_length (by omega)]
      omega

end Output

/-- A permutation of the indices permutes the records. -/
theorem gathered_perm (hbij : Set.BijOn (fun j => getIndex j n) (Set.Iio n) (Set.Iio n)) :
    ((List.range n).map fun j => record data (getIndex j n)).Perm
      ((List.range n).map (record data)) := by
  have hperm : ((List.range n).map fun j => getIndex j n).Perm (List.range n) := by
    refine (List.perm_ext_iff_of_nodup ?_ List.nodup_range).mpr fun k => ?_
    · apply List.Nodup.map_on _ List.nodup_range
      intro a ha b hb heq
      exact hbij.injOn (List.mem_range.mp ha) (List.mem_range.mp hb) heq
    · rw [List.mem_map, List.mem_range]
      constructor
      · rintro ⟨j, hj, rfl⟩
        exact hbij.mapsTo (List.mem_range.mp hj)
      · intro hk
        obtain ⟨j, hj, heq⟩ := hbij.surjOn hk
        exact ⟨j, List.mem_range.mpr hj, heq⟩
  have hmap := hperm.map (record data)
  rwa [List.map_map] at hmap

/-- The output is a shuffle of the input exactly if the input fills its pages: a last page that is
not full leaves zero records behind the end of the input. -/
theorem main_shuffles_iff (data : List UInt8) (pageSize : ℕ) (getIndex : ℕ → ℕ → ℕ)
    (order : List ℕ) (oldOutput : List UInt8) (hpos : 0 < data.length)
    (h16 : data.length % 16 = 0) (hpage : 0 < pageSize) (hpage16 : pageSize % 16 = 0)
    (hbij : Set.BijOn (fun j => getIndex j (data.length / 16)) (Set.Iio (data.length / 16))
      (Set.Iio (data.length / 16)))
    (horder : order.Perm (pages (data.length / 16) pageSize)) :
    (∃ output, main data pageSize getIndex order oldOutput = some output ∧ Shuffles data output) ↔
      pageSize ∣ data.length := by
  have hget (j : ℕ) (hj : j < data.length / 16) :
      getIndex j (data.length / 16) < data.length / 16 := hbij.mapsTo hj
  have hlen := output_length h16 hpage hpage16 hget horder oldOutput hpos
  have hmain : main data pageSize getIndex order oldOutput =
      some (apply (order.map (page data getIndex pageSize)) (resize oldOutput 0 data.length)) := by
    rw [main, if_neg (by omega)]
  rw [hmain]
  constructor
  · rintro ⟨output, heq, hsize, -⟩
    rw [← Option.some.inj heq, hlen] at hsize
    exact ⟨_, by rw [← hsize, Nat.mul_comm]⟩
  · rintro ⟨q, hq⟩
    have hcount : (pages (data.length / 16) pageSize).length = q := by
      have hsize : pageSize = 16 * (pageSize / 16) := by omega
      have hedges : data.length / 16 = pageSize / 16 * q := by
        rw [hq]
        conv_lhs => rw [hsize, Nat.mul_assoc]
        exact Nat.mul_div_cancel_left _ (by decide)
      rw [pages, List.length_map, List.length_range, hedges, Nat.add_sub_assoc (by omega),
        Nat.mul_add_div (by omega), Nat.div_eq_of_lt (by omega), Nat.add_zero]
    have hsize := hlen.trans (by rw [hcount, Nat.mul_comm, ← hq] : _ = data.length)
    refine ⟨_, rfl, hsize, ?_⟩
    rw [output_records h16 hpage hpage16 hget horder hsize]
    exact gathered_perm hbij

/-- Two records that trade places, a page each, the second page written first. -/
theorem main_shuffles_swap : ∃ output,
    main ((List.range 32).map UInt8.ofNat) 16 (fun j _ => 1 - j) [1, 0] [] = some output ∧
      Shuffles ((List.range 32).map UInt8.ofNat) output := by
  refine (main_shuffles_iff _ 16 (fun j _ => 1 - j) [1, 0] [] (by decide) (by decide) (by decide)
    (by decide) ?_ (by decide)).mpr (by decide)
  show Set.BijOn (fun j => 1 - j) (Set.Iio 2) (Set.Iio 2)
  refine ⟨fun j hj => ?_, fun a ha b hb hab => ?_, fun k hk => ⟨1 - k, ?_, ?_⟩⟩
  · show 1 - j < 2
    omega
  · simp only [Set.mem_Iio] at ha hb hab
    omega
  · show 1 - k < 2
    omega
  · simp only [Set.mem_Iio] at hk ⊢
    omega

/-- One record and a page of two: a record of zeros is invented. -/
theorem main_invents_record :
    main (List.replicate 16 1) 32 (fun j _ => j) [0] [] =
        some (List.replicate 16 1 ++ List.replicate 16 0) ∧
      ¬ Shuffles (List.replicate 16 1) (List.replicate 16 1 ++ List.replicate 16 0) := by
  decide

end Shufbel
