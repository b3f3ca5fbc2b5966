import Mathlib.Data.List.Range
import Mathlib.Tactic

/-! Consecutive intervals of indices: an even split with the larger parts first, and blocks of one
size that are cut off at the end. -/
namespace Tiling
variable {α : Type*} {k n p b r : ℕ}

/-- Intervals that start where the one before ends cover all indices up to the last end. -/
theorem flatMap_range' (low : ℕ → ℕ) (hzero : low 0 = 0) (hmono : ∀ i < k, low i ≤ low (i + 1)) :
    ((List.range k).flatMap fun i => List.range' (low i) (low (i + 1) - low i)) =
      List.range (low k) := by
  induction k with
  | zero => simp [hzero]
  | succ k ih =>
    have hle := hmono k (Nat.lt_succ_self k)
    have hjoin := List.range'_append_1 (s := 0) (m := low k) (n := low (k + 1) - low k)
    rw [Nat.zero_add, Nat.add_sub_cancel' hle] at hjoin
    rw [List.range_succ, List.flatMap_append, ih fun i hi => hmono i (Nat.lt_succ_of_lt hi),
      List.flatMap_singleton, List.range_eq_range', List.range_eq_range', hjoin]

/-- The parts of a list between consecutive bounds make up the list. -/
theorem flatMap_slices (low : ℕ → ℕ) (l : List α) (hzero : low 0 = 0) (hmono : ∀ i < k, low i ≤ low (i + 1)) :
    ((List.range k).flatMap fun i => (l.drop (low i)).take (low (i + 1) - low i)) =
      l.take (low k) := by
  induction k with
  | zero => simp [hzero]
  | succ k ih =>
    have hle := hmono k (Nat.lt_succ_self k)
    rw [List.range_succ, List.flatMap_append, ih fun i hi => hmono i (Nat.lt_succ_of_lt hi),
      List.flatMap_singleton, ← List.take_add, Nat.add_sub_cancel' hle]

section Even

/-- The size of part `r` when `n` indices are split over `p` parts. -/
def share (n p r : ℕ) : ℕ := if r < n % p then n / p + 1 else n / p

/-- Where part `r` starts. -/
def firstOf (n p r : ℕ) : ℕ :=
  if r < n % p then r * (n / p + 1) else n % p * (n / p + 1) + (r - n % p) * (n / p)

theorem firstOf_zero (n p : ℕ) : firstOf n p 0 = 0 := by
  unfold firstOf
  split_ifs with h
  · exact Nat.zero_mul _
  · simp [Nat.eq_zero_of_not_pos h]

theorem firstOf_succ (n p r : ℕ) : firstOf n p (r + 1) = firstOf n p r + share n p r := by
  unfold firstOf share
  by_cases h : r < n % p
  · rw [if_pos h, if_pos h]
    split_ifs with h'
    · rw [Nat.succ_mul]
    · have heq : r + 1 = n % p := by omega
      rw [← heq, Nat.sub_self, Nat.zero_mul, Nat.add_zero, Nat.succ_mul]
  · rw [if_neg h, if_neg h, if_neg (by omega), show r + 1 - n % p = r - n % p + 1 by omega,
      Nat.succ_mul, Nat.add_assoc]

/-- Whole quotients, and one more in each of the first shares. -/
theorem firstOf_eq (n p r : ℕ) :
    n / p * r + (if r < n % p then r else n % p) = firstOf n p r := by
  unfold firstOf
  split_ifs with h
  · ring
  · obtain ⟨d, hd⟩ := Nat.exists_eq_add_of_le (not_lt.mp h)
    rw [hd, Nat.add_sub_cancel_left]
    ring

theorem firstOf_all (hp : 0 < p) : firstOf n p p = n := by
  have hlt := Nat.mod_lt n hp
  have hdiv := Nat.mod_add_div n p
  unfold firstOf
  rw [if_neg (by omega), Nat.mul_succ, Nat.add_right_comm, ← Nat.add_mul,
    Nat.add_sub_cancel' hlt.le, Nat.add_comm]
  exact hdiv

theorem firstOf_le (hp : 0 < p) (hr : r ≤ p) : firstOf n p r ≤ n := by
  have hmono : Monotone (firstOf n p) := monotone_nat_of_le_succ fun r => by
    rw [firstOf_succ]
    exact Nat.le_add_right ..
  exact (hmono hr).trans_eq (firstOf_all hp)

/-- Intervals of an even split, one behind the other. -/
theorem flatMap_firstOf (n : ℕ) (hp : 0 < p) :
    (List.range p).flatMap
      (fun r => List.range' (firstOf n p r) (firstOf n p (r + 1) - firstOf n p r)) =
      List.range n := by
  have htile := flatMap_range' (k := p) (firstOf n p) (firstOf_zero n p) fun r _ => by
    rw [firstOf_succ]
    exact Nat.le_add_right ..
  rwa [firstOf_all hp] at htile

theorem flatMap_shares (n : ℕ) (hp : 0 < p) :
    (List.range p).flatMap (fun r => List.range' (firstOf n p r) (share n p r)) = List.range n := by
  rw [← flatMap_firstOf n hp]
  apply List.flatMap_congr
  intro r _
  rw [firstOf_succ, Nat.add_sub_cancel_left]

end Even

section Blocks

/-- The size of `b` blocks for `n` indices, rounded up. -/
def blockSize (n b : ℕ) : ℕ := (n + b - 1) / b

/-- Where block `i` starts. -/
def blockStart (n b i : ℕ) : ℕ := min n (i * blockSize n b)

theorem blockStart_zero (n b : ℕ) : blockStart n b 0 = 0 := by simp [blockStart]

theorem blockStart_mono (n b i : ℕ) : blockStart n b i ≤ blockStart n b (i + 1) :=
  min_le_min_left n (Nat.mul_le_mul_right _ (Nat.le_succ i))

/-- The blocks are large enough. -/
theorem le_mul_blockSize (hb : 0 < b) : n ≤ b * blockSize n b := by
  have hdiv := Nat.lt_mul_div_succ (n + b - 1) hb
  unfold blockSize
  rw [Nat.mul_succ] at hdiv
  omega

theorem blockStart_all (hb : 0 < b) : blockStart n b b = n := min_eq_left (le_mul_blockSize hb)

/-- Blocks that divide the indices have them all. -/
theorem blockSize_mul (q : ℕ) (hb : 0 < b) : blockSize (b * q) b = q := by
  unfold blockSize
  rw [Nat.add_sub_assoc hb, Nat.mul_add_div hb, Nat.div_eq_of_lt (Nat.sub_lt hb Nat.one_pos),
    Nat.add_zero]

theorem blockStart_mul (q : ℕ) (hb : 0 < b) {i : ℕ} (hi : i ≤ b) :
    blockStart (b * q) b i = i * q := by
  rw [blockStart, blockSize_mul q hb]
  exact min_eq_right (Nat.mul_le_mul_right q hi)

end Blocks

end Tiling
