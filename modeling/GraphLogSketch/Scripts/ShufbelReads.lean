import GraphLogSketch.Library.PartialMaps
import GraphLogSketch.Scripts.Shufbel

/-! `shufbel -big` reads each record with `ReadFullAt` instead of copying it from a mapped file. What the
calls of `ReadAt` do is given; `none` is a panic, or a run that needs more calls or leaves some over. -/
namespace Shufbel
open Compaction PartialMaps PositionalWrites

inductive ReadError
  | eof
  | unexpectedEOF
  | other
  deriving DecidableEq

/-- What a call of `ReadAt` returns: a number of bytes, and an error. -/
structure ReadCall where
  n : ℕ
  err : Option ReadError

/-- The error that is returned: none if the buffer is full. -/
def finalError (min n : ℕ) (err : Option ReadError) : Option ReadError :=
  if min ≤ n then none
  else if 0 < n ∧ err = some .eof then some .unexpectedEOF
  else err

/-- The loop of `ReadFullAt`. A call reads bytes that the file has, and no more than fit. -/
def readLoop (file : List UInt8) (buf : List UInt8) (n off : ℕ) (err : Option ReadError) :
    List ReadCall → Option (List UInt8 × ℕ × Option ReadError)
  | [] => if n < buf.length ∧ err = none then none else some (buf, n, finalError buf.length n err)
  | call :: calls =>
    if (n < buf.length ∧ err = none) ∧ n + call.n ≤ buf.length ∧ off + call.n ≤ file.length then
      readLoop file (copyAt buf n ((file.drop off).take call.n)) (n + call.n) (off + call.n) call.err
        calls
    else none

def readFullAt (file : List UInt8) (calls : List ReadCall) (buf : List UInt8) (off : ℕ) :
    Option (List UInt8 × ℕ × Option ReadError) :=
  readLoop file buf 0 off none calls

/-- `readFromInput`. -/
def readFromInput (file : List UInt8) (calls : List ReadCall) (buf : List UInt8) (off : ℕ) :
    Option (List UInt8) := do
  let (buf, _, err) ← readFullAt file calls buf off
  if err = none then return buf else none

section Big
variable (data : List UInt8) (reads : ℕ → List ReadCall) (getIndex : ℕ → ℕ → ℕ)

/-- The records that a goroutine reads into its page. -/
def gatherBig (numEdges pageSize i n : ℕ) : Option (List UInt8) :=
  (List.range n).foldlM (fun output k =>
    (readFromInput data (reads (i + k)) ((output.drop (16 * k)).take 16)
      (16 * getIndex (i + k) numEdges)).map (copyAt output (16 * k))) (List.replicate pageSize 0)

def pageBig (pageSize i : ℕ) : Option Write :=
  let numEdges := data.length / 16
  (gatherBig data reads getIndex numEdges pageSize i (min (pageSize / 16) (numEdges - i))).map
    fun output => ⟨i * 16, output⟩

def mainBig (pageSize : ℕ) (order : List ℕ) (oldOutput : List UInt8) : Option (List UInt8) :=
  if data.length = 0 ∨ data.length % 16 ≠ 0 then none
  else (order.mapM (pageBig data reads getIndex pageSize)).map fun writes =>
    apply writes (resize oldOutput 0 data.length)

end Big

/-- Calls that read a number of bytes: an error can only come with the last ones of them. -/
def Complete : ℕ → List ReadCall → Prop
  | _, [] => False
  | size, [call] => call.n = size
  | size, call :: next :: calls =>
    call.err = none ∧ call.n < size ∧ Complete (size - call.n) (next :: calls)

section Complete
variable {size : ℕ} {call : ReadCall} {calls : List ReadCall}

theorem Complete.le (h : Complete size (call :: calls)) : call.n ≤ size := by
  cases calls with
  | nil => exact Nat.le_of_eq h
  | cons next calls => exact h.2.1.le

/-- After a call that leaves something to read. -/
theorem complete_cons (hlt : call.n < size) (herr : call.err = none) :
    Complete size (call :: calls) ↔ Complete (size - call.n) calls := by
  cases calls with
  | nil => exact iff_of_false hlt.ne id
  | cons next calls => exact ⟨fun h => h.2.2, fun h => ⟨herr, hlt, h⟩⟩

/-- After a call that is the last one. -/
theorem complete_last (h : ¬ (call.n < size ∧ call.err = none)) :
    Complete size (call :: calls) ↔ calls = [] ∧ call.n = size := by
  cases calls with
  | nil => exact ⟨fun hsize => ⟨rfl, hsize⟩, fun hsize => hsize.2⟩
  | cons next calls =>
    exact iff_of_false (fun hcomplete => h ⟨hcomplete.2.1, hcomplete.1⟩) fun hnil =>
      List.cons_ne_nil _ _ hnil.1

end Complete

section Reads
variable {file buf out : List UInt8} {calls : List ReadCall} {n m off : ℕ} {err : Option ReadError}

/-- A full buffer, or an error, ends the loop. -/
theorem readLoop_stopped (h : ¬ (n < buf.length ∧ err = none)) :
    readLoop file buf n off err calls = some (out, m, none) ↔
      calls = [] ∧ out = buf ∧ m = n ∧ buf.length ≤ n := by
  cases calls with
  | nil =>
    rw [readLoop, if_neg h]
    unfold finalError
    split_ifs with hfull hend
    · simp [hfull, eq_comm]
    · simp [hfull]
    · have herr : err ≠ none := fun herr => h ⟨not_le.mp hfull, herr⟩
      simp [hfull, herr]
  | cons call calls =>
    rw [readLoop, if_neg fun hcall => h hcall.1]
    simp

/-- The loop fills the buffer exactly when the calls read what is missing. -/
theorem readLoop_iff (hn : n < buf.length) : (∃ m, readLoop file buf n off none calls =
      some (out, m, none)) ↔
    Complete (buf.length - n) calls ∧ off + (buf.length - n) ≤ file.length ∧
      out = copyAt buf n ((file.drop off).take (buf.length - n)) := by
  induction calls generalizing buf n off with
  | nil => simp [readLoop, hn, Complete]
  | cons call calls ih =>
    by_cases hcall : n + call.n ≤ buf.length ∧ off + call.n ≤ file.length
    case neg =>
      have hnone : readLoop file buf n off none (call :: calls) = none := by
        rw [readLoop, if_neg fun h => hcall h.2]
      simp only [hnone, reduceCtorEq, exists_false, false_iff]
      rintro ⟨hcomplete, hfits, -⟩
      have hle := hcomplete.le
      exact hcall ⟨by omega, by omega⟩
    case pos =>
      obtain ⟨hbuf, hfile⟩ := hcall
      have hbytes : ((file.drop off).take call.n).length = call.n := by
        rw [List.length_take, List.length_drop]
        omega
      have hlen : (copyAt buf n ((file.drop off).take call.n)).length = buf.length :=
        copyAt_length (by omega)
      have hstep : readLoop file buf n off none (call :: calls) =
          readLoop file (copyAt buf n ((file.drop off).take call.n)) (n + call.n) (off + call.n)
            call.err calls := by
        rw [readLoop, if_pos ⟨⟨hn, rfl⟩, hbuf, hfile⟩]
      rw [hstep]
      by_cases hmore : n + call.n < buf.length ∧ call.err = none
      case neg =>
        have hlast : Complete (buf.length - n) (call :: calls) ↔ calls = [] ∧ call.n = buf.length - n :=
          complete_last fun h => hmore ⟨by omega, h.2⟩
        simp only [readLoop_stopped (hlen.symm ▸ hmore), hlen, exists_and_left, exists_eq_left,
          hlast]
        constructor
        · rintro ⟨rfl, rfl, hfull⟩
          have hsize : call.n = buf.length - n := by omega
          exact ⟨⟨rfl, hsize⟩, by omega, by rw [hsize]⟩
        · rintro ⟨⟨rfl, hsize⟩, -, rfl⟩
          exact ⟨rfl, by rw [hsize], by omega⟩
      case pos =>
        obtain ⟨hlt, herr⟩ := hmore
        have hsub : buf.length - (n + call.n) = buf.length - n - call.n := by omega
        have hsplit : (file.drop off).take (buf.length - n) = (file.drop off).take call.n ++
            (file.drop (off + call.n)).take (buf.length - (n + call.n)) := by
          rw [← List.drop_drop, ← List.take_add]
          congr 1
          omega
        have hcopy := copyAt_append hn.le ((file.drop off).take call.n)
          ((file.drop (off + call.n)).take (buf.length - (n + call.n)))
        rw [hbytes, ← hsplit] at hcopy
        have hfits : off + call.n + (buf.length - (n + call.n)) = off + (buf.length - n) := by omega
        rw [herr, ih (hlen.symm ▸ hlt), hlen, hcopy, hfits, hsub, complete_cons (by omega) herr]

/-- What is read is a stretch of the file. -/
theorem readFromInput_iff (hbuf : 0 < buf.length) : readFromInput file calls buf off = some out ↔
    Complete buf.length calls ∧ off + buf.length ≤ file.length ∧
      out = (file.drop off).take buf.length := by
  have hread : readFromInput file calls buf off = some out ↔
      ∃ m, readLoop file buf 0 off none calls = some (out, m, none) := by
    simp only [readFromInput, readFullAt, Option.bind_eq_bind, Option.bind_eq_some_iff, Prod.exists]
    constructor
    · rintro ⟨b, m, err, hloop, hb⟩
      split_ifs at hb with herr
      obtain rfl := Option.some.inj hb
      exact ⟨m, herr ▸ hloop⟩
    · rintro ⟨m, hloop⟩
      exact ⟨out, m, none, hloop, if_pos rfl⟩
  rw [hread, readLoop_iff hbuf, Nat.sub_zero]
  have hwhole (hfits : off + buf.length ≤ file.length) :
      copyAt buf 0 ((file.drop off).take buf.length) = (file.drop off).take buf.length := by
    have hlen : ((file.drop off).take buf.length).length = buf.length := by
      rw [List.length_take, List.length_drop]
      omega
    rw [copyAt, hlen, List.take_zero, List.nil_append, Nat.zero_add, List.drop_length, List.append_nil]
  constructor
  · rintro ⟨hcomplete, hfits, rfl⟩
    exact ⟨hcomplete, hfits, hwhole hfits⟩
  · rintro ⟨hcomplete, hfits, rfl⟩
    exact ⟨hcomplete, hfits, (hwhole hfits).symm⟩

end Reads

section Main
variable {data out : List UInt8} {reads : ℕ → List ReadCall} {getIndex : ℕ → ℕ → ℕ}
  {pageSize i n : ℕ} {order : List ℕ}

/-- The page of a goroutine whose reads are complete is the one that is copied together. -/
theorem gatherBig_iff {numEdges : ℕ} (hsize : 16 * numEdges ≤ data.length) (hn : 16 * n ≤ pageSize)
    (hget : ∀ k < n, getIndex (i + k) numEdges < numEdges) :
    gatherBig data reads getIndex numEdges pageSize i n = some out ↔
      (∀ k < n, Complete 16 (reads (i + k))) ∧ out = gather data getIndex numEdges pageSize i n := by
  induction n generalizing out with
  | zero => simp [gatherBig, gather, eq_comm]
  | succ n ih =>
    have hget' : ∀ k < n, getIndex (i + k) numEdges < numEdges := fun k hk => hget k (Nat.lt_succ_of_lt hk)
    have hlast := hget n (Nat.lt_succ_self n)
    have hlen := (gather_getElem? (i := i) hsize (by omega : 16 * n ≤ pageSize) hget').1
    have hslot : (((gather data getIndex numEdges pageSize i n).drop (16 * n)).take 16).length = 16 := by
      rw [List.length_take, List.length_drop, hlen]
      omega
    have hbig : gatherBig data reads getIndex numEdges pageSize i (n + 1) =
        (gatherBig data reads getIndex numEdges pageSize i n).bind fun output =>
          (readFromInput data (reads (i + n)) ((output.drop (16 * n)).take 16)
            (16 * getIndex (i + n) numEdges)).map (copyAt output (16 * n)) := by
      simp only [gatherBig, List.range_succ, List.foldlM_append, List.foldlM_cons, List.foldlM_nil,
        bind_pure]
      rfl
    have hgather : gather data getIndex numEdges pageSize i (n + 1) =
        copyAt (gather data getIndex numEdges pageSize i n) (16 * n)
          (record data (getIndex (i + n) numEdges)) := by
      rw [gather, List.range_succ, List.foldl_append]
      rfl
    have hfits : 16 * getIndex (i + n) numEdges + 16 ≤ data.length := by omega
    simp only [hbig, Option.bind_eq_some_iff, ih (by omega) hget', Option.map_eq_some_iff]
    constructor
    · rintro ⟨output, ⟨hcomplete, rfl⟩, buf, hbuf, rfl⟩
      rw [readFromInput_iff (by rw [hslot]; decide), hslot] at hbuf
      obtain ⟨hread, -, rfl⟩ := hbuf
      refine ⟨fun k hk => ?_, hgather.symm⟩
      rcases Nat.lt_succ_iff_lt_or_eq.mp hk with hk | rfl
      · exact hcomplete k hk
      · exact hread
    · rintro ⟨hcomplete, rfl⟩
      refine ⟨_, ⟨fun k hk => hcomplete k (Nat.lt_succ_of_lt hk), rfl⟩, _, ?_, hgather.symm⟩
      rw [readFromInput_iff (by rw [hslot]; decide), hslot]
      exact ⟨hcomplete n (Nat.lt_succ_self n), hfits, rfl⟩

/-- Reading the records yields the same file as copying them, however the reads are cut, if each of them
is complete; otherwise the run panics. -/
theorem mainBig_iff (data : List UInt8) (reads : ℕ → List ReadCall) (getIndex : ℕ → ℕ → ℕ)
    (pageSize : ℕ) (order : List ℕ) (oldOutput : List UInt8) (hpage : 16 ≤ pageSize)
    (hget : ∀ j < data.length / 16, getIndex j (data.length / 16) < data.length / 16)
    (horder : order.Perm (pages (data.length / 16) pageSize)) (out : List UInt8) :
    mainBig data reads getIndex pageSize order oldOutput = some out ↔
      (∀ j < data.length / 16, Complete 16 (reads j)) ∧
        main data pageSize getIndex order oldOutput = some out := by
  have hpage' : 0 < pageSize / 16 := by omega
  have hpages : ∀ i ∈ order, ∀ w, pageBig data reads getIndex pageSize i = some w ↔
      (∀ k < min (pageSize / 16) (data.length / 16 - i), Complete 16 (reads (i + k))) ∧
        w = page data getIndex pageSize i := by
    intro i hi w
    have hcount (k : ℕ) (hk : k < min (pageSize / 16) (data.length / 16 - i)) :
        getIndex (i + k) (data.length / 16) < data.length / 16 := hget (i + k) (by omega)
    have hsize : 16 * (data.length / 16) ≤ data.length := by omega
    have hslots : 16 * min (pageSize / 16) (data.length / 16 - i) ≤ pageSize := by omega
    simp only [pageBig, Option.map_eq_some_iff, gatherBig_iff hsize hslots hcount, page]
    constructor
    · rintro ⟨output, ⟨hcomplete, rfl⟩, rfl⟩
      exact ⟨hcomplete, rfl⟩
    · rintro ⟨hcomplete, rfl⟩
      exact ⟨_, ⟨hcomplete, rfl⟩, rfl⟩
  have hall : (∀ i ∈ order, ∀ k < min (pageSize / 16) (data.length / 16 - i), Complete 16 (reads (i + k))) ↔
      ∀ j < data.length / 16, Complete 16 (reads j) := by
    constructor
    · intro h j hj
      obtain ⟨i, hi, hlow, hhigh⟩ := exists_page hpage' hj
      have hread := h i (horder.mem_iff.mpr hi) (j - i) (by omega)
      rwa [Nat.add_sub_cancel' hlow] at hread
    · intro h i _ k hk
      exact h (i + k) (by omega)
  unfold mainBig main
  split_ifs
  · simp
  · simp only [Option.map_eq_some_iff, mapM_eq_some_iff hpages, hall, Option.some.injEq]
    constructor
    · rintro ⟨writes, ⟨hcomplete, rfl⟩, rfl⟩
      exact ⟨hcomplete, rfl⟩
    · rintro ⟨hcomplete, rfl⟩
      exact ⟨_, ⟨hcomplete, rfl⟩, rfl⟩

/-- The first record is read by two calls, the second one to the end of the file. -/
def swapReads (j : ℕ) : List ReadCall :=
  if j = 0 then [⟨4, none⟩, ⟨12, some .eof⟩] else [⟨16, none⟩]

theorem mainBig_swap :
    mainBig ((List.range 32).map UInt8.ofNat) swapReads (fun j _ => 1 - j) 16 [1, 0] [] =
      some (((List.range 32).map UInt8.ofNat).drop 16 ++ ((List.range 32).map UInt8.ofNat).take 16) := by
  refine (mainBig_iff _ swapReads (fun j _ => 1 - j) 16 [1, 0] [] (by decide) (by decide) (by decide) _).mpr
    ⟨fun j hj => ?_, by decide⟩
  have hj : j < 2 := hj
  unfold swapReads
  split_ifs with hzero
  · exact ⟨rfl, by decide, rfl⟩
  · rfl

end Main
end Shufbel
