import Mathlib.Data.List.Basic
import Mathlib.Tactic

/-! Many lists in one array: each list is copied to its offset, the sum of the lengths before it, in
any order and over any old contents. -/
namespace Compaction
variable {α : Type*}

/-- Where list `i` starts. -/
def offset (ls : List (List α)) (i : ℕ) : ℕ := ((ls.take i).map List.length).sum

/-- Overwrite a stretch of the buffer. -/
def copyAt (buffer : List α) (start : ℕ) (xs : List α) : List α :=
  buffer.take start ++ xs ++ buffer.drop (start + xs.length)

/-- Grow with a filler or cut off. -/
def resize (buffer : List α) (filler : α) (size : ℕ) : List α :=
  buffer.take size ++ List.replicate (size - buffer.length) filler

variable {ls : List (List α)} {buffer xs : List α} {i j k p start : ℕ}

@[simp] theorem resize_length (buffer : List α) (filler : α) (size : ℕ) :
    (resize buffer filler size).length = size := by
  rw [resize, List.length_append, List.length_take, List.length_replicate]
  omega

/-- Growing does not change what is read with the filler as default. -/
theorem resize_getD (buffer : List α) {filler : α} {size : ℕ} (h : buffer.length ≤ size) (p : ℕ) :
    (resize buffer filler size).getD p filler = buffer.getD p filler := by
  rw [resize, List.take_of_length_le h, List.getD_eq_getElem?_getD, List.getD_eq_getElem?_getD]
  by_cases hp : p < buffer.length
  · rw [List.getElem?_append_left hp]
  · rw [List.getElem?_append_right (not_lt.mp hp), List.getElem?_eq_none (not_lt.mp hp),
      List.getElem?_replicate]
    split_ifs
    · rfl
    · rfl

@[simp] theorem offset_zero (ls : List (List α)) : offset ls 0 = 0 := rfl

@[simp] theorem offset_cons_succ (xs : List α) (ls : List (List α)) (i : ℕ) :
    offset (xs :: ls) (i + 1) = xs.length + offset ls i := rfl

theorem offset_succ (hi : i < ls.length) : offset ls (i + 1) = offset ls i + ls[i].length := by
  rw [offset, offset, List.take_succ_eq_append_getElem hi, List.map_append, List.sum_append]
  simp

theorem offset_le (ls : List (List α)) (hij : i ≤ j) : offset ls i ≤ offset ls j := by
  induction ls generalizing i j with
  | nil => simp [offset]
  | cons xs ls ih =>
    cases i with
    | zero => exact Nat.zero_le _
    | succ i =>
      cases j with
      | zero => omega
      | succ j =>
        rw [offset_cons_succ, offset_cons_succ]
        exact Nat.add_le_add_left (ih (Nat.le_of_succ_le_succ hij)) _

theorem offset_length (ls : List (List α)) : offset ls ls.length = ls.flatten.length := by
  rw [offset, List.take_length, List.length_flatten]

theorem copyAt_length (h : start + xs.length ≤ buffer.length) :
    (copyAt buffer start xs).length = buffer.length := by
  rw [copyAt, List.length_append, List.length_append, List.length_take, List.length_drop]
  omega

/-- Two stretches behind each other are one. -/
theorem copyAt_append (h : start ≤ buffer.length) (xs ys : List α) :
    copyAt (copyAt buffer start xs) (start + xs.length) ys = copyAt buffer start (xs ++ ys) := by
  have hfront : (buffer.take start ++ xs).length = start + xs.length := by
    rw [List.length_append, List.length_take, min_eq_left h]
  have htake : (copyAt buffer start xs).take (start + xs.length) = buffer.take start ++ xs := by
    rw [copyAt, ← hfront]
    exact List.take_left
  have hdrop : (copyAt buffer start xs).drop (start + xs.length + ys.length) =
      buffer.drop (start + xs.length + ys.length) := by
    have hnone : (buffer.take start ++ xs).drop (start + xs.length + ys.length) = [] :=
      List.drop_eq_nil_of_le (by omega)
    have hsub : start + xs.length + (start + xs.length + ys.length - (start + xs.length)) =
        start + xs.length + ys.length := by omega
    rw [copyAt, List.drop_append, hnone, List.nil_append, hfront, List.drop_drop, hsub]
  rw [copyAt, htake, hdrop, copyAt, List.length_append, ← Nat.add_assoc]
  simp only [List.append_assoc]

theorem copyAt_getElem? (h : start + xs.length ≤ buffer.length) (p : ℕ) :
    (copyAt buffer start xs)[p]? =
      if start ≤ p ∧ p < start + xs.length then xs[p - start]? else buffer[p]? := by
  have htake : (buffer.take start).length = start := by
    rw [List.length_take]
    omega
  unfold copyAt
  by_cases hlow : p < start
  · rw [if_neg (by omega), List.append_assoc, List.getElem?_append_left (by omega),
      List.getElem?_take_of_lt hlow]
  · by_cases hmid : p < start + xs.length
    · rw [if_pos ⟨by omega, hmid⟩, List.append_assoc, List.getElem?_append_right (by omega), htake,
        List.getElem?_append_left (by omega)]
    · rw [if_neg (by omega), List.getElem?_append_right (by
        rw [List.length_append, htake]
        omega), List.length_append, htake, List.getElem?_drop]
      congr 1
      omega

/-- Positions inside a list of the family lie between its offset and the next. -/
theorem offset_add_lt (hi : i < ls.length) (hij : i < j) (hk : k < ls[i].length) :
    offset ls i + k < offset ls j := by
  have hle := offset_le ls (Nat.succ_le_of_lt hij)
  rw [offset_succ hi] at hle
  omega

/-- An array that has each list at its offset is the lists one after another. -/
theorem eq_flatten (hlen : buffer.length = offset ls ls.length)
    (h : ∀ i (hi : i < ls.length) k, k < ls[i].length →
      buffer[offset ls i + k]? = ls[i][k]?) : buffer = ls.flatten := by
  induction ls generalizing buffer with
  | nil => exact List.eq_nil_of_length_eq_zero hlen
  | cons xs ls ih =>
    rw [List.length_cons, offset_cons_succ] at hlen
    have htake : buffer.take xs.length = xs := by
      apply List.ext_getElem?
      intro k
      by_cases hk : k < xs.length
      · have h0 := h 0 (Nat.succ_pos _) k hk
        rw [offset_zero, Nat.zero_add] at h0
        rw [List.getElem?_take_of_lt hk]
        exact h0
      · rw [List.getElem?_eq_none (by rw [List.length_take]; omega), List.getElem?_eq_none (by omega)]
    have hdrop : buffer.drop xs.length = ls.flatten := by
      apply ih
      · rw [List.length_drop]
        omega
      · intro i hi k hk
        have hs := h (i + 1) (Nat.succ_lt_succ hi) k hk
        rw [offset_cons_succ, Nat.add_assoc] at hs
        rw [List.getElem?_drop]
        exact hs
    rw [List.flatten_cons, ← hdrop]
    conv_lhs => rw [← List.take_append_drop xs.length buffer, htake]

/-- Copying one list to its offset leaves the stretches of the others alone. -/
theorem copyAt_offset_getElem? (hlen : buffer.length = offset ls ls.length) (hi : i < ls.length)
    (hj : j < ls.length) (hk : k < ls[j].length) :
    (copyAt buffer (offset ls i) ls[i])[offset ls j + k]? =
      if j = i then ls[j][k]? else buffer[offset ls j + k]? := by
  have hle : offset ls i + ls[i].length ≤ buffer.length := by
    rw [hlen, ← offset_succ hi]
    exact offset_le ls hi
  rw [copyAt_getElem? hle, ← offset_succ hi]
  rcases Nat.lt_trichotomy j i with hlt | rfl | hgt
  · have hbefore := offset_add_lt hj hlt hk
    rw [if_neg (by omega), if_neg hlt.ne]
  · have hbefore := offset_add_lt hj (Nat.lt_succ_self j) hk
    rw [if_pos ⟨by omega, hbefore⟩, if_pos rfl]
    congr 1
    omega
  · have hafter : offset ls (i + 1) ≤ offset ls j := offset_le ls hgt
    rw [if_neg (by omega), if_neg hgt.ne']

theorem foldl_copyAt_getElem? {order : List ℕ} (horder : ∀ i ∈ order, i < ls.length)
    (hlen : buffer.length = offset ls ls.length) :
    (order.foldl (fun b i => copyAt b (offset ls i) (ls.getD i [])) buffer).length =
        buffer.length ∧
      ∀ j (hj : j < ls.length) k, k < ls[j].length →
        (order.foldl (fun b i => copyAt b (offset ls i) (ls.getD i [])) buffer)[offset ls j + k]? =
          if j ∈ order then ls[j][k]? else buffer[offset ls j + k]? := by
  induction order generalizing buffer with
  | nil => exact ⟨rfl, fun j hj k hk => by simp⟩
  | cons i order ih =>
    have hi := horder i List.mem_cons_self
    have hget : ls.getD i [] = ls[i] := by simp [hi]
    have hcopy : (copyAt buffer (offset ls i) ls[i]).length = buffer.length := by
      apply copyAt_length
      rw [hlen, ← offset_succ hi]
      exact offset_le ls hi
    obtain ⟨hlen', hrest⟩ := ih (fun j hj => horder j (List.mem_cons_of_mem i hj))
      (hcopy.trans hlen)
    rw [List.foldl_cons, hget]
    refine ⟨hlen'.trans hcopy, fun j hj k hk => ?_⟩
    rw [hrest j hj k hk, copyAt_offset_getElem? hlen hi hj hk]
    by_cases hji : j = i
    · simp [hji]
    · simp [hji]

/-- Copying the lists to their offsets, each once in any order, lays them out one after another. -/
theorem foldl_copyAt {order : List ℕ} (horder : order.Perm (List.range ls.length))
    (hlen : buffer.length = offset ls ls.length) :
    order.foldl (fun b i => copyAt b (offset ls i) (ls.getD i [])) buffer = ls.flatten := by
  have hmem (i : ℕ) : i ∈ order ↔ i < ls.length := by rw [horder.mem_iff, List.mem_range]
  obtain ⟨hlen', hget⟩ := foldl_copyAt_getElem? (fun i hi => (hmem i).mp hi) hlen
  apply eq_flatten (hlen'.trans hlen)
  intro i hi k hk
  rw [hget i hi k hk, if_pos ((hmem i).mpr hi)]

/-- The stretch of list `i` in the laid-out array. -/
theorem flatten_slice (hi : i < ls.length) :
    (ls.flatten.drop (offset ls i)).take ls[i].length = ls[i] := by
  induction ls generalizing i with
  | nil => simp at hi
  | cons xs ls ih =>
    cases i with
    | zero => simp [offset]
    | succ i =>
      rw [offset_cons_succ, List.flatten_cons, ← List.drop_drop, List.drop_left]
      exact ih (Nat.lt_of_succ_lt_succ hi)

/-- Every position of the array belongs to exactly one list. -/
theorem exists_unique_slice (hp : p < ls.flatten.length) :
    ∃! i, i < ls.length ∧ offset ls i ≤ p ∧ p < offset ls (i + 1) := by
  have hex : ∃ j, p < offset ls j := ⟨ls.length, by rwa [offset_length]⟩
  obtain ⟨i, hi⟩ : ∃ i, Nat.find hex = i + 1 := by
    refine Nat.exists_eq_succ_of_ne_zero fun h0 => ?_
    have hspec := Nat.find_spec hex
    rw [h0, offset_zero] at hspec
    exact absurd hspec (Nat.not_lt_zero p)
  have hspec := Nat.find_spec hex
  have hmin := Nat.find_min hex (show i < Nat.find hex by omega)
  have hlast := Nat.find_min' hex (m := ls.length) (by rwa [offset_length])
  rw [hi] at hspec
  refine ⟨i, ⟨by omega, not_lt.mp hmin, hspec⟩, fun j ⟨_, hj, hj'⟩ => ?_⟩
  rcases Nat.lt_trichotomy j i with hlt | heq | hgt
  · have hle : offset ls (j + 1) ≤ offset ls i := offset_le ls hlt
    omega
  · exact heq
  · have hle : offset ls (i + 1) ≤ offset ls j := offset_le ls hgt
    omega

end Compaction
