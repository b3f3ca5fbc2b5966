import Mathlib.Data.List.GetD
import GraphLogSketch.Library.Compaction
import GraphLogSketch.Library.Words

/-! Files written at positions. Writing past the end fills the gap with zeros; what a byte holds after
many writes in some order depends only on the writes that cover it when these agree. -/
namespace PositionalWrites
open Compaction ByteWords

structure Write where
  offset : ℕ
  bytes : List UInt8

namespace Write

def stop (w : Write) : ℕ := w.offset + w.bytes.length

def Covers (w : Write) (i : ℕ) : Prop := w.offset ≤ i ∧ i < w.stop

/-- The byte that the write puts at position `i`. -/
def byte (w : Write) (i : ℕ) : UInt8 := w.bytes.getD (i - w.offset) 0

end Write

/-- One write; its bytes are taken to be nonempty. -/
def pwrite (file : List UInt8) (w : Write) : List UInt8 :=
  copyAt (resize file 0 (max file.length w.stop)) w.offset w.bytes

def apply (ws : List Write) (file : List UInt8) : List UInt8 := ws.foldl pwrite file

variable {ws : List Write} {w : Write} {file : List UInt8} {i : ℕ} {b : UInt8}

@[simp] theorem apply_cons (w : Write) (ws : List Write) (file : List UInt8) :
    apply (w :: ws) file = apply ws (pwrite file w) := rfl

theorem stop_le_resize (file : List UInt8) (w : Write) :
    w.offset + w.bytes.length ≤ (resize file 0 (max file.length w.stop)).length := by
  rw [resize_length]
  exact le_max_right _ _

@[simp] theorem pwrite_length (file : List UInt8) (w : Write) :
    (pwrite file w).length = max file.length w.stop := by
  rw [pwrite, copyAt_length (stop_le_resize file w), resize_length]

theorem pwrite_getD_of_covers (h : w.Covers i) : (pwrite file w).getD i 0 = w.byte i := by
  have h : w.offset ≤ i ∧ i < w.offset + w.bytes.length := h
  rw [pwrite, List.getD_eq_getElem?_getD, copyAt_getElem? (stop_le_resize file w), if_pos h,
    Write.byte, List.getD_eq_getElem?_getD]

theorem pwrite_getD_of_not_covers (h : ¬ w.Covers i) :
    (pwrite file w).getD i 0 = file.getD i 0 := by
  have h : ¬ (w.offset ≤ i ∧ i < w.offset + w.bytes.length) := h
  rw [pwrite, List.getD_eq_getElem?_getD, copyAt_getElem? (stop_le_resize file w), if_neg h,
    ← List.getD_eq_getElem?_getD, resize_getD file (le_max_left _ _)]

theorem length_le_apply (ws : List Write) (file : List UInt8) :
    file.length ≤ (apply ws file).length := by
  induction ws generalizing file with
  | nil => exact le_rfl
  | cons w ws ih =>
    refine le_trans ?_ (ih (pwrite file w))
    rw [pwrite_length]
    exact le_max_left _ _

theorem stop_le_apply (hw : w ∈ ws) (file : List UInt8) : w.stop ≤ (apply ws file).length := by
  induction ws generalizing file with
  | nil => exact absurd hw List.not_mem_nil
  | cons v ws ih =>
    rcases List.mem_cons.mp hw with rfl | hw
    · refine le_trans ?_ (length_le_apply ws (pwrite file w))
      rw [pwrite_length]
      exact le_max_right _ _
    · exact ih hw (pwrite file v)

theorem apply_length_le {size : ℕ} (hfile : file.length ≤ size) (hws : ∀ w ∈ ws, w.stop ≤ size) :
    (apply ws file).length ≤ size := by
  induction ws generalizing file with
  | nil => exact hfile
  | cons w ws ih =>
    apply ih
    · rw [pwrite_length]
      exact max_le hfile (hws w List.mem_cons_self)
    · exact fun v hv => hws v (List.mem_cons_of_mem w hv)

/-- A byte that no write covers stays. -/
theorem apply_getD_of_not_covers (h : ∀ w ∈ ws, ¬ w.Covers i) :
    (apply ws file).getD i 0 = file.getD i 0 := by
  induction ws generalizing file with
  | nil => rfl
  | cons w ws ih =>
    have hrest (v : Write) (hv : v ∈ ws) : ¬ v.Covers i := h v (List.mem_cons_of_mem w hv)
    rw [apply_cons, ih hrest, pwrite_getD_of_not_covers (h w List.mem_cons_self)]

/-- When all writes that cover a byte agree on it, their order does not matter. -/
theorem apply_getD_of_agree (h : ∀ w ∈ ws, w.Covers i → w.byte i = b)
    (hex : file.getD i 0 = b ∨ ∃ w ∈ ws, w.Covers i) : (apply ws file).getD i 0 = b := by
  induction ws generalizing file with
  | nil =>
    rcases hex with hb | ⟨w, hw, -⟩
    · exact hb
    · exact absurd hw List.not_mem_nil
  | cons w ws ih =>
    apply ih fun v hv => h v (List.mem_cons_of_mem w hv)
    by_cases hc : w.Covers i
    · left
      rw [pwrite_getD_of_covers hc, h w List.mem_cons_self hc]
    · rw [pwrite_getD_of_not_covers hc]
      refine hex.imp_right fun ⟨v, hv, hcv⟩ => ⟨v, ?_, hcv⟩
      rcases List.mem_cons.mp hv with rfl | hv
      · exact absurd hcv hc
      · exact hv

/-- The write of one word. -/
def wordWrite (offset : ℕ) (v : UInt64) : Write := ⟨offset, wordBytes v⟩

@[simp] theorem wordWrite_stop (offset : ℕ) (v : UInt64) :
    (wordWrite offset v).stop = offset + 8 := by
  simp [wordWrite, Write.stop]

theorem natOf_take_drop (buffer : List UInt8) (offset n : ℕ) :
    natOf ((buffer.drop offset).take (n + 1)) =
      (buffer.getD offset 0).toNat + 256 * natOf ((buffer.drop (offset + 1)).take n) := by
  by_cases h : offset < buffer.length
  · rw [List.drop_eq_getElem_cons h, List.take_succ_cons, natOf, List.getD_eq_getElem?_getD,
      List.getElem?_eq_getElem h, Option.getD_some]
  · have hlen := not_lt.mp h
    rw [List.drop_of_length_le hlen, List.drop_of_length_le (by omega), List.getD_eq_getElem?_getD,
      List.getElem?_eq_none hlen]
    simp [natOf]

theorem natOf_congr {a b : List UInt8} {offset offset' : ℕ} (n : ℕ)
    (h : ∀ k < n, a.getD (offset + k) 0 = b.getD (offset' + k) 0) :
    natOf ((a.drop offset).take n) = natOf ((b.drop offset').take n) := by
  induction n generalizing offset offset' with
  | zero => simp
  | succ n ih =>
    have hfirst := h 0 (Nat.succ_pos n)
    have hrest : natOf ((a.drop (offset + 1)).take n) = natOf ((b.drop (offset' + 1)).take n) := by
      apply ih
      intro k hk
      have hk := h (k + 1) (Nat.succ_lt_succ hk)
      rwa [Nat.add_comm k 1, ← Nat.add_assoc, ← Nat.add_assoc] at hk
    rw [natOf_take_drop, natOf_take_drop, hrest]
    rw [Nat.add_zero, Nat.add_zero] at hfirst
    rw [hfirst]

/-- A word depends on its eight bytes only; missing bytes read as zero. -/
theorem wordAt_congr {a b : List UInt8} {offset offset' : ℕ}
    (h : ∀ k < 8, a.getD (offset + k) 0 = b.getD (offset' + k) 0) :
    wordAt a offset = wordAt b offset' := by
  rw [wordAt, wordAt, natOf_congr 8 h]

theorem wordAt_of_bytes {offset : ℕ} {v : UInt64}
    (h : ∀ k < 8, file.getD (offset + k) 0 = (wordBytes v).getD k 0) : wordAt file offset = v := by
  have hword := wordAt_wordBytes v []
  rw [List.append_nil] at hword
  refine (wordAt_congr fun k hk => ?_).trans hword
  rw [Nat.zero_add, h k hk]

/-- Words written at multiples of 8: one that is written with one value only holds it. -/
theorem wordAt_apply {rs : List (ℕ × UInt64)} {k : ℕ} {v : UInt64}
    (hagree : ∀ r ∈ rs, r.1 = k → r.2 = v) (hex : ∃ r ∈ rs, r.1 = k) (file : List UInt8) :
    wordAt (apply (rs.map fun r => wordWrite (8 * r.1) r.2) file) (8 * k) = v := by
  apply wordAt_of_bytes
  intro j hj
  apply apply_getD_of_agree
  · intro w hw hc
    obtain ⟨r, hr, rfl⟩ := List.mem_map.mp hw
    obtain ⟨hlow, hhigh⟩ := hc
    rw [wordWrite_stop] at hhigh
    have hlow : 8 * r.1 ≤ 8 * k + j := hlow
    have hk : r.1 = k := by omega
    show (wordBytes r.2).getD (8 * k + j - 8 * r.1) 0 = _
    rw [hagree r hr hk, hk, Nat.add_sub_cancel_left]
  · obtain ⟨r, hr, hk⟩ := hex
    refine Or.inr ⟨_, List.mem_map.mpr ⟨r, hr, rfl⟩, ?_, ?_⟩
    · show 8 * r.1 ≤ _
      omega
    · rw [wordWrite_stop]
      omega

/-- A word that is not written stays. -/
theorem wordAt_apply_of_untouched {rs : List (ℕ × UInt64)} {k : ℕ} (h : ∀ r ∈ rs, r.1 ≠ k)
    (file : List UInt8) :
    wordAt (apply (rs.map fun r => wordWrite (8 * r.1) r.2) file) (8 * k) = wordAt file (8 * k) := by
  apply wordAt_congr
  intro j hj
  apply apply_getD_of_not_covers
  rintro w hw ⟨hlow, hhigh⟩
  obtain ⟨r, hr, rfl⟩ := List.mem_map.mp hw
  rw [wordWrite_stop] at hhigh
  have hlow : 8 * r.1 ≤ 8 * k + j := hlow
  exact h r hr (by omega)

/-- The writes that put the words of an array to their places, from word `k` on. -/
def wordWrites (ws : List UInt64) (k : ℕ) : List Write :=
  (ws.zipIdx k).map fun p => wordWrite (8 * p.2) p.1

theorem encodeWords_getD {ws : List UInt64} {k j : ℕ} {v : UInt64} (hk : ws[k]? = some v)
    (hj : j < 8) : (encodeWords ws).getD (8 * k + j) 0 = (wordBytes v).getD j 0 := by
  induction ws generalizing k with
  | nil => simp at hk
  | cons w ws ih =>
    rw [encodeWords_cons, List.getD_eq_getElem?_getD]
    cases k with
    | zero =>
      have hv : w = v := by simpa using hk
      rw [List.getElem?_append_left (by rw [wordBytes_length]; omega), Nat.mul_zero, Nat.zero_add, hv,
        List.getD_eq_getElem?_getD]
    | succ k =>
      rw [List.getElem?_append_right (by rw [wordBytes_length]; omega), wordBytes_length,
        ← ih (by simpa using hk), List.getD_eq_getElem?_getD]
      congr 2
      omega

/-- What is written from the start of a file, and what it has behind that. -/
def overlay (new old : List UInt8) : List UInt8 := new ++ old.drop new.length

@[simp] theorem overlay_nil (new : List UInt8) : overlay new [] = new := by simp [overlay]

section WordWrites
variable {ws : List UInt64} {order : List Write}

theorem mem_wordWrites {w : Write} :
    w ∈ wordWrites ws 0 ↔ ∃ k v, ws[k]? = some v ∧ w = wordWrite (8 * k) v := by
  constructor
  · intro hw
    obtain ⟨⟨v, k⟩, hp, rfl⟩ := List.mem_map.mp hw
    exact ⟨k, v, List.mk_mem_zipIdx_iff_getElem?.mp hp, rfl⟩
  · rintro ⟨k, v, hk, rfl⟩
    exact List.mem_map.mpr ⟨(v, k), List.mk_mem_zipIdx_iff_getElem?.mpr hk, rfl⟩

theorem apply_wordWrites_length (h : order.Perm (wordWrites ws 0)) (file : List UInt8) :
    (apply order file).length = max (8 * ws.length) file.length := by
  have hfile := length_le_apply order file
  apply le_antisymm
  · apply apply_length_le (le_max_right _ _)
    intro w hw
    obtain ⟨k, v, hk, rfl⟩ := mem_wordWrites.mp (h.mem_iff.mp hw)
    have hlt := (List.getElem?_eq_some_iff.mp hk).1
    rw [wordWrite_stop]
    omega
  · rcases Nat.eq_zero_or_pos ws.length with hzero | hpos
    · omega
    · have hlt := Nat.sub_lt hpos Nat.one_pos
      have hlast := stop_le_apply (h.mem_iff.mpr (mem_wordWrites.mpr
        ⟨ws.length - 1, _, List.getElem?_eq_getElem hlt, rfl⟩)) file
      rw [wordWrite_stop] at hlast
      omega

/-- A byte of a word that is written is the byte of this word. -/
theorem apply_wordWrites_getD (h : order.Perm (wordWrites ws 0)) (file : List UInt8) {i : ℕ}
    (hi : i < 8 * ws.length) : (apply order file).getD i 0 = (encodeWords ws).getD i 0 := by
  have hk : ws[i / 8]? = some ws[i / 8] := List.getElem?_eq_getElem (by omega)
  have hbyte := encodeWords_getD hk (Nat.mod_lt i (by decide : 0 < 8))
  rw [Nat.div_add_mod] at hbyte
  rw [hbyte]
  apply apply_getD_of_agree
  · intro w hw hc
    obtain ⟨k, v, hkv, rfl⟩ := mem_wordWrites.mp (h.mem_iff.mp hw)
    obtain ⟨hlow, hhigh⟩ := hc
    rw [wordWrite_stop] at hhigh
    have hlow : 8 * k ≤ i := hlow
    obtain rfl : k = i / 8 := by omega
    obtain rfl := Option.some.inj (hkv.symm.trans hk)
    show (wordBytes _).getD (i - 8 * (i / 8)) 0 = _
    congr 1
    omega
  · refine Or.inr ⟨_, h.mem_iff.mpr (mem_wordWrites.mpr ⟨i / 8, _, hk, rfl⟩), ?_, ?_⟩
    · show 8 * (i / 8) ≤ i
      omega
    · rw [wordWrite_stop]
      omega

/-- Behind the words the file stays. -/
theorem apply_wordWrites_getD_of_le (h : order.Perm (wordWrites ws 0)) (file : List UInt8) {i : ℕ}
    (hi : 8 * ws.length ≤ i) : (apply order file).getD i 0 = file.getD i 0 := by
  apply apply_getD_of_not_covers
  rintro w hw ⟨-, hhigh⟩
  obtain ⟨k, v, hk, rfl⟩ := mem_wordWrites.mp (h.mem_iff.mp hw)
  have hlt := (List.getElem?_eq_some_iff.mp hk).1
  rw [wordWrite_stop] at hhigh
  omega

/-- Words written to their places in any order make up the array. -/
theorem apply_wordWrites_overlay (h : order.Perm (wordWrites ws 0)) (file : List UInt8) :
    apply order file = overlay (encodeWords ws) file := by
  have hlen : (apply order file).length = (overlay (encodeWords ws) file).length := by
    rw [apply_wordWrites_length h, overlay, List.length_append, List.length_drop,
      encodeWords_length]
    omega
  have hget (i : ℕ) : (apply order file).getD i 0 = (overlay (encodeWords ws) file).getD i 0 := by
    rcases lt_or_ge i (8 * ws.length) with hi | hi
    · rw [apply_wordWrites_getD h file hi, overlay,
        List.getD_append _ _ _ _ (by rwa [encodeWords_length])]
    · rw [apply_wordWrites_getD_of_le h file hi, overlay,
        List.getD_append_right _ _ _ _ (by rwa [encodeWords_length]), encodeWords_length,
        List.getD_eq_getElem?_getD, List.getD_eq_getElem?_getD, List.getElem?_drop,
        Nat.add_sub_cancel' hi]
  apply List.ext_getElem hlen
  intro i hi hi'
  have hbyte := hget i
  rwa [List.getD_eq_getElem _ _ hi, List.getD_eq_getElem _ _ hi'] at hbyte

end WordWrites

theorem apply_wordWrites {ws : List UInt64} {order : List Write}
    (h : order.Perm (wordWrites ws 0)) : apply order [] = encodeWords ws := by
  rw [apply_wordWrites_overlay h, overlay_nil]

/-- Chunks written one behind the other, as a file offset that moves along does it. -/
def sequential : List (List UInt8) → ℕ → List Write
  | [], _ => []
  | bytes :: chunks, offset => ⟨offset, bytes⟩ :: sequential chunks (offset + bytes.length)

end PositionalWrites
