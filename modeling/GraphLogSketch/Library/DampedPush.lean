import GraphLogSketch.Library.ShortestPaths
import Mathlib.Algebra.BigOperators.Field
import Mathlib.Algebra.Order.Field.Basic

/-! Mass that vertices push along their out-edges in equal parts. A push moves no more than there is, and a
damped push brings two distributions closer to each other. -/
namespace DampedPush
open ShortestPaths (Closed)
variable {α K : Type*} [DecidableEq α] [Field K]

/-- What arrives at `w` when every vertex hands out what it has. -/
def push (out : α → List α) (V : Finset α) (r : α → K) (w : α) : K :=
  ∑ v ∈ V, (out v).count w * (r v / (out v).length)

/-- A constant amount, and a part of what is pushed. -/
def damped (out : α → List α) (V : Finset α) (base d : K) (r : α → K) (w : α) : K :=
  base + d * push out V r w

section Linear
variable {out : α → List α} {V : Finset α} {r s : α → K}

theorem push_sub (r s : α → K) (w : α) :
    push out V r w - push out V s w = push out V (fun v => r v - s v) w := by
  unfold push
  rw [← Finset.sum_sub_distrib]
  apply Finset.sum_congr rfl
  intro v _
  ring

theorem damped_sub (base d : K) (r s : α → K) (w : α) :
    damped out V base d r w - damped out V base d s w = d * push out V (fun v => r v - s v) w := by
  rw [damped, damped, ← push_sub]
  ring

variable [CharZero K] (hclosed : Closed out V)
include hclosed

/-- Everything that a vertex with an out-edge has arrives somewhere. -/
theorem sum_count_div {v : α} (hv : v ∈ V) (x : K) :
    ∑ w ∈ V, (out v).count w * (x / (out v).length) = if out v = [] then 0 else x := by
  have hcount : ∑ w ∈ V, (out v).count w = (out v).length := by
    simpa using Multiset.sum_count_eq_card (s := V) (m := (out v : Multiset α)) (hclosed v hv)
  rw [← Finset.sum_mul, ← Nat.cast_sum, hcount]
  split_ifs with hnil
  · simp [hnil]
  · have hne : ((out v).length : K) ≠ 0 :=
      Nat.cast_ne_zero.mpr fun hzero => hnil (List.length_eq_zero_iff.mp hzero)
    field_simp

theorem sum_push (r : α → K) :
    ∑ w ∈ V, push out V r w = ∑ v ∈ V, if out v = [] then 0 else r v := by
  unfold push
  rw [Finset.sum_comm]
  exact Finset.sum_congr rfl fun v hv => sum_count_div hclosed hv (r v)

end Linear

section Ordered
variable [LinearOrder K] [IsStrictOrderedRing K] {out : α → List α} {V : Finset α} {r s : α → K}

theorem push_nonneg (h : ∀ v ∈ V, 0 ≤ r v) (w : α) : 0 ≤ push out V r w := by
  apply Finset.sum_nonneg
  intro v hv
  exact mul_nonneg (Nat.cast_nonneg _) (div_nonneg (h v hv) (Nat.cast_nonneg _))

theorem abs_push_le (r : α → K) (w : α) : |push out V r w| ≤ push out V (fun v => |r v|) w := by
  unfold push
  refine (Finset.abs_sum_le_sum_abs _ _).trans_eq (Finset.sum_congr rfl fun v _ => ?_)
  rw [abs_mul, abs_div, Nat.abs_cast, Nat.abs_cast]

section Closed
variable (hclosed : Closed out V)
include hclosed

theorem sum_push_le (h : ∀ v ∈ V, 0 ≤ r v) : ∑ w ∈ V, push out V r w ≤ ∑ v ∈ V, r v := by
  rw [sum_push hclosed]
  apply Finset.sum_le_sum
  intro v hv
  split_ifs
  · exact h v hv
  · exact le_rfl

theorem sum_abs_push_le (r : α → K) : ∑ w ∈ V, |push out V r w| ≤ ∑ v ∈ V, |r v| :=
  (Finset.sum_le_sum fun w _ => abs_push_le r w).trans
    (sum_push_le hclosed fun v _ => abs_nonneg (r v))

/-- The distance of two distributions shrinks by the damping factor. -/
theorem sum_abs_damped_sub_le {d : K} (hd : 0 ≤ d) (base : K) (r s : α → K) :
    ∑ w ∈ V, |damped out V base d r w - damped out V base d s w| ≤ d * ∑ v ∈ V, |r v - s v| := by
  have hpush := mul_le_mul_of_nonneg_left
    (sum_abs_push_le hclosed fun v => r v - s v) hd
  refine le_trans (le_of_eq ?_) hpush
  rw [Finset.mul_sum]
  apply Finset.sum_congr rfl
  intro w _
  rw [damped_sub, abs_mul, abs_of_nonneg hd]

end Closed

omit [DecidableEq α] in
/-- Between a distribution and what it becomes there are at most both masses. -/
theorem sum_abs_sub_le (h : ∀ v ∈ V, 0 ≤ r v) (h' : ∀ v ∈ V, 0 ≤ s v) :
    ∑ v ∈ V, |r v - s v| ≤ ∑ v ∈ V, r v + ∑ v ∈ V, s v := by
  rw [← Finset.sum_add_distrib]
  apply Finset.sum_le_sum
  intro v hv
  have hr := h v hv
  have hs := h' v hv
  exact abs_sub_le_iff.mpr ⟨by linarith, by linarith⟩

end Ordered

end DampedPush
