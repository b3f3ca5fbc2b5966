import Mathlib.Algebra.Order.Floor.Semifield
import Mathlib.Data.Rat.Floor
import Mathlib.Tactic

/-! Binary64 bit patterns, their exact values, and the conversion to an unsigned 64-bit integer. -/
namespace Binary64

def negative (w : UInt64) : Bool := decide (2 ^ 63 ≤ w.toNat)

def exponent (w : UInt64) : ℕ := w.toNat / 2 ^ 52 % 2 ^ 11

def fraction (w : UInt64) : ℕ := w.toNat % 2 ^ 52

/-- Subnormal patterns have no hidden bit. -/
def significand (w : UInt64) : ℕ :=
  if exponent w = 0 then fraction w else 2 ^ 52 + fraction w

def sign (w : UInt64) : ℚ := if negative w then -1 else 1

/-- The power of two of the last significand bit; subnormals share the least one. -/
def scale (w : UInt64) : ℤ := (max (exponent w) 1 : ℕ) - 1075

/-- The rational number a finite pattern stands for; infinities and NaNs have none. -/
def value (w : UInt64) : Option ℚ :=
  if exponent w = 2047 then none else some (sign w * significand w * 2 ^ scale w)

/-- Conversion to an unsigned integer drops the fractional part. It has no defined result on
infinities, on NaNs and where the truncated value does not fit. -/
def toUInt64 (w : UInt64) : Option UInt64 :=
  (value w).bind fun q => if -1 < q ∧ q < 2 ^ 64 then some (UInt64.ofNat ⌊q⌋₊) else none

theorem fraction_lt (w : UInt64) : fraction w < 2 ^ 52 := Nat.mod_lt _ (by norm_num)

theorem significand_lt (w : UInt64) : significand w < 2 ^ 53 := by
  have := fraction_lt w
  unfold significand
  split_ifs <;> omega

/-- Without the sign bit the exponent field is everything above the fraction. -/
theorem toNat_of_nonnegative {w : UInt64} (h : negative w = false) :
    w.toNat = exponent w * 2 ^ 52 + fraction w := by
  have hs : w.toNat < 2 ^ 63 := by simpa [negative] using h
  unfold exponent fraction
  omega

theorem value_eq {w : UInt64} {q : ℚ} (hv : value w = some q) :
    q = sign w * significand w * 2 ^ scale w := by
  unfold value at hv
  split_ifs at hv
  exact (Option.some.inj hv).symm

theorem value_nonpos {w : UInt64} {q : ℚ} (hn : negative w = true) (hv : value w = some q) :
    q ≤ 0 := by
  rw [value_eq hv, sign, if_pos hn, mul_assoc]
  have hp : (0 : ℚ) ≤ significand w * 2 ^ scale w := by positivity
  linarith

theorem value_of_nonnegative {w : UInt64} {q : ℚ} (hn : negative w = false)
    (hv : value w = some q) : q = significand w * 2 ^ scale w := by
  rw [value_eq hv, sign, hn]
  simp

theorem two_zpow_scale_le {w : UInt64} {z : ℤ} (h : scale w ≤ z) : (2 : ℚ) ^ scale w ≤ 2 ^ z :=
  zpow_le_zpow_right₀ (by norm_num) h

/-- A significand has 53 bits, so a bound on the scale bounds the value. -/
theorem value_lt {w : UInt64} {q : ℚ} {z : ℤ} (hn : negative w = false)
    (hs : scale w ≤ z) (hv : value w = some q) : q < 2 ^ (53 + z) := by
  rw [value_of_nonnegative hn hv, zpow_add₀ (by norm_num)]
  have hsig : (significand w : ℚ) < 2 ^ (53 : ℤ) := by exact_mod_cast significand_lt w
  have hp : (0 : ℚ) < 2 ^ scale w := by positivity
  calc (significand w : ℚ) * 2 ^ scale w
      < 2 ^ (53 : ℤ) * 2 ^ scale w := mul_lt_mul_of_pos_right hsig hp
    _ ≤ 2 ^ (53 : ℤ) * 2 ^ z := mul_le_mul_of_nonneg_left (two_zpow_scale_le hs) (by positivity)

/-- From exponent 1075 on the value is an integer. -/
theorem value_eq_nat {w : UInt64} {q : ℚ} (hn : negative w = false)
    (hge : 1075 ≤ exponent w) (hv : value w = some q) :
    q = ((2 ^ 52 + fraction w) * 2 ^ (exponent w - 1075) : ℕ) := by
  have hs : scale w = (exponent w - 1075 : ℕ) := by unfold scale; omega
  have hz : exponent w ≠ 0 := by omega
  rw [value_of_nonnegative hn hv, hs, zpow_natCast, significand, if_neg hz]
  push_cast
  rfl

theorem no_integer_fixed_point {k m : ℕ} (hk : k < 12) (hm : m < 2 ^ 52) :
    (2 ^ 52 + m) * 2 ^ k ≠ (1075 + k) * 2 ^ 52 + m := by
  intro h
  interval_cases k <;> omega

/-- Positive zero is the only pattern that its own conversion reproduces. -/
theorem toUInt64_eq_self_iff (w : UInt64) : toUInt64 w = some w ↔ w = 0 := by
  constructor
  · intro h
    obtain ⟨q, hv, hq⟩ := Option.bind_eq_some_iff.mp h
    split_ifs at hq with hr
    have hfloor : ⌊q⌋₊ % 2 ^ 64 = w.toNat := by
      have := congrArg UInt64.toNat (Option.some.inj hq)
      simpa using this
    have hlt : ⌊q⌋₊ < 2 ^ 64 := by
      rcases lt_or_ge q 0 with hneg | hpos
      · rw [Nat.floor_of_nonpos hneg.le]; norm_num
      · exact (Nat.floor_lt hpos).mpr (by exact_mod_cast hr.2)
    rw [Nat.mod_eq_of_lt hlt] at hfloor
    have hzero (hw : w.toNat = 0) : w = 0 := UInt64.toNat_inj.mp (by simpa using hw)
    by_cases hn : negative w = true
    · have hle := value_nonpos hn hv
      rw [Nat.floor_of_nonpos hle] at hfloor
      exact hzero hfloor.symm
    have hn : negative w = false := by simpa using hn
    have hb := toNat_of_nonnegative hn
    by_cases he : exponent w = 0
    · have hs : scale w ≤ -53 := by unfold scale; omega
      have hq1 : q < 1 := by simpa using value_lt hn hs hv
      rw [Nat.floor_eq_zero.mpr hq1] at hfloor
      exact hzero hfloor.symm
    exfalso
    rcases Nat.lt_or_ge (exponent w) 1075 with hlow | hge
    · have hs : scale w ≤ -1 := by unfold scale; omega
      have hq52 : q < 2 ^ (52 : ℤ) := by simpa using value_lt hn hs hv
      have hf : ⌊q⌋₊ < 2 ^ 52 := by
        rw [Nat.floor_lt' (by norm_num)]
        exact_mod_cast hq52
      omega
    · have hnat := value_eq_nat hn hge hv
      rw [hnat, Nat.floor_natCast] at hfloor hlt
      obtain ⟨k, hk⟩ := Nat.exists_eq_add_of_le hge
      rw [hb, hk, Nat.add_sub_cancel_left] at hfloor
      rw [hk, Nat.add_sub_cancel_left] at hlt
      have hk12 : k < 12 := by
        by_contra hc
        have h12 : 2 ^ 12 ≤ 2 ^ k := Nat.pow_le_pow_right (by norm_num) (by omega)
        have := Nat.mul_le_mul (Nat.le_add_right (2 ^ 52) (fraction w)) h12
        omega
      exact no_integer_fixed_point hk12 (fraction_lt w) hfloor
  · rintro rfl
    have hv : value 0 = some 0 := by simp [value, exponent, significand, fraction]
    simp [toUInt64, hv]

end Binary64
