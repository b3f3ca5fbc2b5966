import GraphLogSketch.Library.DampedPush
import Mathlib.LinearAlgebra.FiniteDimensional.Basic

/-! The ranks that a damped push leaves as they are: there is exactly one such assignment, it is not
negative, and a push that goes a short way ends close to it. -/
namespace DampedPush
open ShortestPaths (Closed)
variable {α K : Type*} [DecidableEq α] [Field K] [LinearOrder K] [IsStrictOrderedRing K]
  {out : α → List α} {V : Finset α} {base d : K} {r s : α → K}

/-- A damped push changes nothing on the vertices. -/
def Stationary (out : α → List α) (V : Finset α) (base d : K) (r : α → K) : Prop :=
  ∀ w ∈ V, r w = damped out V base d r w

section Contraction
variable (hclosed : Closed out V) (hd : 0 ≤ d)
include hclosed hd

/-- A push brings ranks closer to stationary ones. -/
theorem Stationary.sum_abs_sub_le (hs : Stationary out V base d s) (r : α → K) :
    ∑ w ∈ V, |damped out V base d r w - s w| ≤ d * ∑ v ∈ V, |r v - s v| := by
  refine le_trans (le_of_eq ?_) (sum_abs_damped_sub_le hclosed hd base r s)
  exact Finset.sum_congr rfl fun w hw => by rw [← hs w hw]

/-- How far ranks are from stationary ones is told by how far the last push went. -/
theorem Stationary.error_le (hs : Stationary out V base d s) (r : α → K) :
    (1 - d) * ∑ w ∈ V, |damped out V base d r w - s w| ≤
      d * ∑ w ∈ V, |damped out V base d r w - r w| := by
  have hcloser := hs.sum_abs_sub_le hclosed hd r
  have htriangle : ∑ v ∈ V, |r v - s v| ≤
      ∑ w ∈ V, |damped out V base d r w - r w| + ∑ w ∈ V, |damped out V base d r w - s w| := by
    rw [← Finset.sum_add_distrib]
    refine Finset.sum_le_sum fun v _ => ?_
    rw [abs_sub_comm (damped out V base d r v) (r v)]
    exact abs_sub_le _ _ _
  have hscaled := mul_le_mul_of_nonneg_left htriangle hd
  linarith

variable (hd1 : d < 1)
include hd1

theorem Stationary.eq_of (hr : Stationary out V base d r) (hs : Stationary out V base d s) :
    ∀ v ∈ V, r v = s v := by
  have hcloser := hs.sum_abs_sub_le hclosed hd r
  have hsame : ∑ w ∈ V, |damped out V base d r w - s w| = ∑ v ∈ V, |r v - s v| :=
    Finset.sum_congr rfl fun w hw => by rw [← hr w hw]
  have hnonneg : 0 ≤ ∑ v ∈ V, |r v - s v| := Finset.sum_nonneg fun v _ => abs_nonneg _
  rw [hsame] at hcloser
  have hzero : ∑ v ∈ V, |r v - s v| = 0 := by nlinarith
  intro v hv
  have habs := (Finset.sum_eq_zero_iff_of_nonneg fun v _ => abs_nonneg (r v - s v)).mp hzero v hv
  exact sub_eq_zero.mp (abs_eq_zero.mp habs)

/-- Ranks minus their damped push depend linearly on the ranks, and only zero ranks give zero. -/
theorem exists_stationary (base : K) : ∃ r, Stationary out V base d r := by
  let rank (x : V → K) : α → K := Function.extend Subtype.val x 0
  have hrank (x : V → K) (v : V) : rank x v = x v := Subtype.val_injective.extend_apply x 0 v
  have hpush (x : V → K) (w : α) : push out V (rank x) w =
      ∑ v : V, (out v).count w * (x v / (out v).length) := by
    rw [push, ← Finset.sum_coe_sort]
    exact Finset.sum_congr rfl fun v _ => by rw [hrank]
  let f : (V → K) →ₗ[K] (V → K) :=
    { toFun := fun x w => x w - d * push out V (rank x) w
      map_add' := by
        intro x y
        funext w
        simp only [hpush, Pi.add_apply, add_div, mul_add, Finset.sum_add_distrib]
        ring
      map_smul' := by
        intro c x
        funext w
        simp only [hpush, Pi.smul_apply, smul_eq_mul, RingHom.id_apply, mul_sub, Finset.mul_sum]
        congr 1
        exact Finset.sum_congr rfl fun v _ => by ring }
  have hinjective : Function.Injective f := by
    refine (injective_iff_map_eq_zero f).mpr fun x hx => ?_
    have hx₀ : Stationary out V 0 d (rank x) := by
      intro w hw
      have hw₀ : x ⟨w, hw⟩ - d * push out V (rank x) w = 0 := congrFun hx ⟨w, hw⟩
      rw [damped, hrank x ⟨w, hw⟩]
      linarith
    have hzero : Stationary out V 0 d (0 : α → K) := by
      intro w _
      simp [damped, push]
    funext v
    rw [← hrank x v]
    exact hx₀.eq_of hclosed hd hd1 hzero v v.2
  obtain ⟨x, hx⟩ := LinearMap.injective_iff_surjective.mp hinjective fun _ => base
  refine ⟨rank x, fun w hw => ?_⟩
  have hw₁ : x ⟨w, hw⟩ - d * push out V (rank x) w = base := congrFun hx ⟨w, hw⟩
  rw [damped, hrank x ⟨w, hw⟩]
  linarith

/-- The negative parts of stationary ranks would have to grow when they are pushed. -/
theorem Stationary.base_le (hr : Stationary out V base d r) (hbase : 0 ≤ base) :
    ∀ v ∈ V, base ≤ r v := by
  have hpart (w : α) (hw : w ∈ V) : max (-r w) 0 ≤ d * push out V (fun v => max (-r v) 0) w := by
    have hsum : 0 ≤ push out V r w + push out V (fun v => max (-r v) 0) w := by
      have hadd : push out V r w + push out V (fun v => max (-r v) 0) w =
          push out V (fun v => r v + max (-r v) 0) w := by
        unfold push
        rw [← Finset.sum_add_distrib]
        exact Finset.sum_congr rfl fun v _ => by ring
      rw [hadd]
      exact push_nonneg (fun v _ => by linarith [le_max_left (-r v) 0]) w
    have hnonneg : 0 ≤ push out V (fun v => max (-r v) 0) w :=
      push_nonneg (fun v _ => le_max_right _ _) w
    have hw := hr w hw
    rw [damped] at hw
    refine max_le ?_ (mul_nonneg hd hnonneg)
    have hscaled := mul_nonneg hd hsum
    linarith
  have hsum : ∑ w ∈ V, push out V (fun v => max (-r v) 0) w ≤ ∑ v ∈ V, max (-r v) 0 :=
    sum_push_le hclosed fun v _ => le_max_right _ _
  have hall : ∑ w ∈ V, max (-r w) 0 ≤ d * ∑ w ∈ V, max (-r w) 0 := by
    calc ∑ w ∈ V, max (-r w) 0
        ≤ ∑ w ∈ V, d * push out V (fun v => max (-r v) 0) w := Finset.sum_le_sum hpart
      _ = d * ∑ w ∈ V, push out V (fun v => max (-r v) 0) w := (Finset.mul_sum _ _ _).symm
      _ ≤ d * ∑ w ∈ V, max (-r w) 0 := mul_le_mul_of_nonneg_left hsum hd
  have hparts : 0 ≤ ∑ w ∈ V, max (-r w) 0 := Finset.sum_nonneg fun w _ => le_max_right _ _
  have hzero : ∑ w ∈ V, max (-r w) 0 = 0 := by nlinarith
  have hnonneg : ∀ v ∈ V, 0 ≤ r v := by
    intro v hv
    have hv₀ := (Finset.sum_eq_zero_iff_of_nonneg fun w _ => le_max_right (-r w) 0).mp hzero v hv
    linarith [le_max_left (-r v) 0]
  intro v hv
  have hpushed : 0 ≤ d * push out V r v := mul_nonneg hd (push_nonneg hnonneg v)
  have hv := hr v hv
  rw [damped] at hv
  linarith

end Contraction

/-- The mass of stationary ranks: what is handed out anew, and what is kept of the mass of the
vertices that have out-edges. -/
theorem Stationary.sum_eq (hclosed : Closed out V) (hr : Stationary out V base d r) :
    ∑ v ∈ V, r v = V.card * base + d * ∑ v ∈ V, if out v = [] then 0 else r v := by
  rw [Finset.sum_congr rfl hr, ← sum_push hclosed, Finset.mul_sum]
  unfold damped
  rw [Finset.sum_add_distrib, Finset.sum_const, nsmul_eq_mul]

end DampedPush
