import Mathlib.Data.Int.Log
import Mathlib.Data.Rat.Floor
import Mathlib.Tactic

/-! Rounding of non-negative rationals to a number of significant bits, to nearest with ties to even.
There is no least and no largest exponent. -/
namespace SignificantBits
variable {p : ℕ} {x y n s : ℚ} {k e : ℤ}

/-- The nearest integer, and of two the even one. -/
def nearestEven (x : ℚ) : ℤ :=
  if Int.fract x < 1 / 2 ∨ Int.fract x = 1 / 2 ∧ Even ⌊x⌋ then ⌊x⌋ else ⌊x⌋ + 1

/-- The exponent of the last of the `p` bits. -/
def lastBit (p : ℕ) (x : ℚ) : ℤ := Int.log 2 x + 1 - p

def roundBits (p : ℕ) (x : ℚ) : ℚ := nearestEven (x / 2 ^ lastBit p x) * 2 ^ lastBit p x

/-- Numbers that have no more than `p` significant bits. -/
def Representable (p : ℕ) (x : ℚ) : Prop := ∃ (m : ℕ) (e : ℤ), m < 2 ^ p ∧ x = m * 2 ^ e

section NearestEven

theorem nearestEven_le (h : x ≤ k) : nearestEven x ≤ k := by
  have hfloor : ⌊x⌋ ≤ k := by exact_mod_cast (Int.floor_le x).trans h
  unfold nearestEven
  split_ifs with hdown
  · exact hfloor
  · -- an integer has no fraction and is not rounded up
    rcases hfloor.lt_or_eq with hlt | heq
    · exact hlt
    · have hfract := Int.floor_add_fract x
      rw [heq] at hfract
      exact absurd (Or.inl (by linarith)) hdown

theorem le_nearestEven (h : k ≤ x) : k ≤ nearestEven x := by
  have hfloor : k ≤ ⌊x⌋ := Int.le_floor.mpr h
  unfold nearestEven
  split_ifs
  · exact hfloor
  · exact hfloor.trans (Int.le_add_one le_rfl)

theorem nearestEven_intCast (k : ℤ) : nearestEven k = k :=
  le_antisymm (nearestEven_le le_rfl) (le_nearestEven le_rfl)

/-- Below the midpoint. -/
theorem nearestEven_le_of_lt_half (h : x < k + 1 / 2) : nearestEven x ≤ k := by
  rcases lt_or_ge x k with hlt | hge
  · exact nearestEven_le hlt.le
  · have hfloor : ⌊x⌋ = k := Int.floor_eq_iff.mpr ⟨hge, by linarith⟩
    have hfract : Int.fract x < 1 / 2 := by
      rw [Int.fract, hfloor]
      linarith
    rw [nearestEven, if_pos (Or.inl hfract), hfloor]

theorem nearestEven_sub_one_le (x : ℚ) : (nearestEven x : ℚ) - 1 ≤ x := by
  have hup : nearestEven x ≤ ⌊x⌋ + 1 := by
    apply nearestEven_le
    push_cast
    exact (Int.lt_floor_add_one x).le
  have hup : (nearestEven x : ℚ) ≤ ⌊x⌋ + 1 := by exact_mod_cast hup
  linarith [Int.floor_le x]

end NearestEven

section Scale

theorem two_zpow_pos (e : ℤ) : (0 : ℚ) < 2 ^ e := zpow_pos (by norm_num) e

theorem two_zpow_add (a b : ℤ) : (2 : ℚ) ^ (a + b) = 2 ^ a * 2 ^ b := zpow_add₀ (by norm_num) a b

theorem two_zpow_le (h : k ≤ e) : (2 : ℚ) ^ k ≤ 2 ^ e := zpow_le_zpow_right₀ (by norm_num) h

/-- A positive number lies in the binade of its last bit. -/
theorem binade (p : ℕ) (hx : 0 < x) :
    (2 : ℚ) ^ (lastBit p x + p - 1) ≤ x ∧ x < 2 ^ (lastBit p x + p) := by
  have hle := Int.zpow_log_le_self (b := 2) (by norm_num) hx
  have hlt := Int.lt_zpow_succ_log_self (b := 2) (by norm_num) x
  have hlow : lastBit p x + p - 1 = Int.log 2 x := by
    unfold lastBit
    ring
  have hhigh : lastBit p x + p = Int.log 2 x + 1 := by
    unfold lastBit
    ring
  rw [hlow, hhigh]
  exact ⟨by exact_mod_cast hle, by exact_mod_cast hlt⟩

/-- The binade tells the last bit. -/
theorem lastBit_eq (p : ℕ) (hle : (2 : ℚ) ^ (e + p - 1) ≤ x) (hlt : x < 2 ^ (e + p)) :
    lastBit p x = e := by
  have hx : 0 < x := (two_zpow_pos _).trans_le hle
  have hlow : e + p - 1 ≤ Int.log 2 x :=
    (Int.zpow_le_iff_le_log (b := 2) (by norm_num) hx).mp (by exact_mod_cast hle)
  have hhigh : Int.log 2 x < e + p :=
    (Int.lt_zpow_iff_log_lt (b := 2) (by norm_num) hx).mp (by exact_mod_cast hlt)
  unfold lastBit
  omega

theorem roundBits_zero (p : ℕ) : roundBits p 0 = 0 := by
  have hzero : nearestEven 0 = 0 := by exact_mod_cast nearestEven_intCast 0
  simp [roundBits, hzero]

theorem roundBits_le_of_int (h : x ≤ k * 2 ^ lastBit p x) :
    roundBits p x ≤ k * 2 ^ lastBit p x := by
  have hpos := two_zpow_pos (lastBit p x)
  have hround : nearestEven (x / 2 ^ lastBit p x) ≤ k :=
    nearestEven_le ((div_le_iff₀ hpos).mpr h)
  exact mul_le_mul_of_nonneg_right (by exact_mod_cast hround) hpos.le

theorem le_roundBits_of_int (h : k * 2 ^ lastBit p x ≤ x) :
    k * 2 ^ lastBit p x ≤ roundBits p x := by
  have hpos := two_zpow_pos (lastBit p x)
  have hround : k ≤ nearestEven (x / 2 ^ lastBit p x) :=
    le_nearestEven ((le_div_iff₀ hpos).mpr h)
  exact mul_le_mul_of_nonneg_right (by exact_mod_cast hround) hpos.le

end Scale

section Representable

theorem Representable.nonneg (h : Representable p x) : 0 ≤ x := by
  obtain ⟨m, e, -, rfl⟩ := h
  exact mul_nonneg (Nat.cast_nonneg m) (two_zpow_pos e).le

theorem Representable.lt (h : Representable p x) :
    ∃ (m : ℕ) (e : ℤ), x = m * 2 ^ e ∧ x < 2 ^ (e + p) := by
  obtain ⟨m, e, hm, rfl⟩ := h
  refine ⟨m, e, rfl, ?_⟩
  rw [add_comm e, two_zpow_add, zpow_natCast]
  exact mul_lt_mul_of_pos_right (by exact_mod_cast hm) (two_zpow_pos e)

theorem representable_natCast {m : ℕ} (h : m < 2 ^ p) : Representable p m :=
  ⟨m, 0, h, by simp⟩

theorem representable_intCast_mul (hk : 0 ≤ k) (h : k < 2 ^ p) (e : ℤ) :
    Representable p (k * 2 ^ e) := by
  obtain ⟨m, rfl⟩ := Int.eq_ofNat_of_zero_le hk
  exact ⟨m, e, by exact_mod_cast h, by rw [Int.cast_natCast]⟩

theorem representable_two_zpow (hp : 0 < p) (e : ℤ) : Representable p (2 ^ e) :=
  ⟨1, e, Nat.one_lt_two_pow hp.ne', by simp⟩

/-- With its last bit not below that of `x`, a number is a multiple of the last bit of `x`. -/
theorem multiple_of_le {m : ℕ} (h : lastBit p x ≤ e) :
    ∃ k : ℤ, (m * 2 ^ e : ℚ) = k * 2 ^ lastBit p x := by
  obtain ⟨d, hd⟩ := Int.eq_ofNat_of_zero_le (Int.sub_nonneg_of_le h)
  refine ⟨m * 2 ^ d, ?_⟩
  have he : e = d + lastBit p x := by
    rw [← hd]
    ring
  rw [he, two_zpow_add, zpow_natCast]
  push_cast
  ring

/-- Rounding does not pass a representable number from below. -/
theorem roundBits_le (hy : Representable p y) (hx : 0 ≤ x) (h : x ≤ y) : roundBits p x ≤ y := by
  rcases hx.eq_or_lt with rfl | hpos
  · exact (roundBits_zero p).trans_le h
  · obtain ⟨m, e, hm, hlt⟩ := hy.lt
    obtain ⟨hbin, -⟩ := binade p hpos
    have he : lastBit p x ≤ e := by
      by_contra hlow
      have hle := two_zpow_le (show e + p ≤ lastBit p x + p - 1 by omega)
      linarith
    obtain ⟨k, hk⟩ := multiple_of_le (m := m) he
    rw [hm, hk] at h ⊢
    exact roundBits_le_of_int h

/-- Rounding does not pass a representable number from above. -/
theorem le_roundBits (hp : 0 < p) (hy : Representable p y) (hx : 0 ≤ x) (h : y ≤ x) :
    y ≤ roundBits p x := by
  rcases hx.eq_or_lt with rfl | hpos
  · exact h.trans (roundBits_zero p).ge
  obtain ⟨m, e, hm, hlt⟩ := hy.lt
  obtain ⟨hbin, -⟩ := binade p hpos
  rcases le_or_gt (lastBit p x) e with he | he
  · obtain ⟨k, hk⟩ := multiple_of_le (m := m) he
    rw [hm, hk] at h ⊢
    exact le_roundBits_of_int h
  · -- the power of two that starts the binade is above `y`
    have hle := two_zpow_le (show e + p ≤ lastBit p x + p - 1 by omega)
    have hstart : lastBit p x ≤ lastBit p x + p - 1 := by omega
    obtain ⟨k, hk⟩ := multiple_of_le (m := 1) hstart
    rw [Nat.cast_one, one_mul] at hk
    have hround : (2 : ℚ) ^ (lastBit p x + p - 1) ≤ roundBits p x := by
      rw [hk] at hbin ⊢
      exact le_roundBits_of_int hbin
    linarith

theorem roundBits_eq_self (hp : 0 < p) (hx : Representable p x) : roundBits p x = x :=
  le_antisymm (roundBits_le hx hx.nonneg le_rfl) (le_roundBits hp hx hx.nonneg le_rfl)

theorem roundBits_nonneg (hp : 0 < p) (hx : 0 ≤ x) : 0 ≤ roundBits p x :=
  le_roundBits hp (by simpa using representable_natCast (Nat.two_pow_pos p)) hx hx

/-- The integer that the significand is rounded to keeps to the binade. -/
theorem significand_bounds (hp : 0 < p) (hx : 0 < x) :
    (2 : ℤ) ^ (p - 1) ≤ nearestEven (x / 2 ^ lastBit p x) ∧
      nearestEven (x / 2 ^ lastBit p x) ≤ 2 ^ p := by
  obtain ⟨hlow, hhigh⟩ := binade p hx
  have hpos := two_zpow_pos (lastBit p x)
  have hpred : lastBit p x + p - 1 = lastBit p x + (p - 1 : ℕ) := by omega
  rw [hpred, two_zpow_add, zpow_natCast, mul_comm] at hlow
  rw [two_zpow_add, zpow_natCast, mul_comm] at hhigh
  constructor
  · apply le_nearestEven
    push_cast
    exact (le_div_iff₀ hpos).mpr hlow
  · apply nearestEven_le
    push_cast
    exact (div_le_iff₀ hpos).mpr hhigh.le

theorem representable_roundBits (hp : 0 < p) (hx : 0 ≤ x) : Representable p (roundBits p x) := by
  rcases hx.eq_or_lt with rfl | hpos
  · rw [roundBits_zero]
    exact ⟨0, 0, Nat.two_pow_pos p, by simp⟩
  · obtain ⟨hlow, hhigh⟩ := significand_bounds hp hpos
    rw [roundBits]
    rcases hhigh.lt_or_eq with hlt | heq
    · exact representable_intCast_mul ((by positivity : (0 : ℤ) ≤ 2 ^ (p - 1)).trans hlow) hlt _
    · have hpow : ((2 ^ p : ℤ) : ℚ) = 2 ^ (p : ℤ) := by simp
      rw [heq, hpow, ← two_zpow_add]
      exact representable_two_zpow hp _

/-- Natural numbers stay natural numbers. -/
theorem roundBits_natCast (hp : 0 < p) (m : ℕ) : ∃ k : ℕ, roundBits p m = k := by
  rcases lt_or_ge m (2 ^ p) with hlt | hge
  · exact ⟨m, roundBits_eq_self hp (representable_natCast hlt)⟩
  · have hpos : (0 : ℚ) < m := by exact_mod_cast (Nat.two_pow_pos p).trans_le hge
    obtain ⟨-, hbin⟩ := binade p hpos
    have hlast : 0 ≤ lastBit p m := by
      by_contra hneg
      have hle := two_zpow_le (show lastBit p m + p ≤ p by omega)
      rw [zpow_natCast] at hle
      have hge : (2 : ℚ) ^ p ≤ m := by exact_mod_cast hge
      linarith
    obtain ⟨d, hd⟩ := Int.eq_ofNat_of_zero_le hlast
    obtain ⟨hlow, -⟩ := significand_bounds hp hpos
    obtain ⟨k, hk⟩ := Int.eq_ofNat_of_zero_le ((by positivity : (0 : ℤ) ≤ 2 ^ (p - 1)).trans hlow)
    refine ⟨k * 2 ^ d, ?_⟩
    rw [roundBits, hk, hd]
    push_cast
    rw [zpow_natCast]

end Representable

section Products

/-- Below the midpoint of two neighbours with `p` bits. -/
theorem roundBits_le_of_lt_midpoint (hlow : 2 ^ (p - 1) ≤ k) (hp : 0 < p) (hhigh : k < 2 ^ p)
    (hx : 0 ≤ x) (h : x < (k + 1 / 2) * 2 ^ e) : roundBits p x ≤ k * 2 ^ e := by
  have hpos := two_zpow_pos e
  rcases le_or_gt x (k * 2 ^ e) with hle | hgt
  · exact roundBits_le
      (representable_intCast_mul ((by positivity : (0 : ℤ) ≤ 2 ^ (p - 1)).trans hlow) hhigh e) hx hle
  · have hpred : e + p - 1 = (p - 1 : ℕ) + e := by omega
    have hstart : (2 : ℚ) ^ (e + p - 1) ≤ x := by
      rw [hpred, two_zpow_add, zpow_natCast]
      have hlow : (2 : ℚ) ^ (p - 1) ≤ k := by exact_mod_cast hlow
      exact (mul_le_mul_of_nonneg_right hlow hpos.le).trans hgt.le
    have hend : x < 2 ^ (e + p) := by
      rw [add_comm, two_zpow_add, zpow_natCast]
      have hhigh : (k : ℚ) + 1 ≤ 2 ^ p := by exact_mod_cast hhigh
      have hmid := mul_le_mul_of_nonneg_right (show (k : ℚ) + 1 / 2 ≤ 2 ^ p by linarith) hpos.le
      exact h.trans_le hmid
    have hlast := lastBit_eq p hstart hend
    have hround := nearestEven_le_of_lt_half ((div_lt_iff₀ hpos).mpr h)
    rw [roundBits, hlast]
    exact mul_le_mul_of_nonneg_right (by exact_mod_cast hround) hpos.le

/-- The largest fraction below one. -/
theorem Representable.le_of_lt_one (hp : 0 < p) (hs : Representable p s) (h : s < 1) :
    s ≤ 1 - 2 ^ (-p : ℤ) := by
  obtain ⟨m, e, hm, rfl⟩ := hs
  have hpos := two_zpow_pos (-p : ℤ)
  rcases lt_or_ge e (-p) with he | he
  · have hm : (m : ℚ) < 2 ^ (p : ℤ) := by exact_mod_cast hm
    have hlt := mul_lt_mul_of_pos_right hm (two_zpow_pos e)
    have hhalf := two_zpow_le (show p + e ≤ -1 by omega)
    have hlast := two_zpow_le (show (-p : ℤ) ≤ -1 by omega)
    rw [← two_zpow_add] at hlt
    rw [show (2 : ℚ) ^ (-1 : ℤ) = 1 / 2 by norm_num] at hhalf hlast
    linarith
  · obtain ⟨d, hd⟩ := Int.eq_ofNat_of_zero_le (show 0 ≤ e + p by omega)
    have hvalue : (m * 2 ^ e : ℚ) = (m * 2 ^ d : ℕ) * 2 ^ (-p : ℤ) := by
      rw [show e = d + (-p : ℤ) by omega, two_zpow_add, zpow_natCast]
      push_cast
      ring
    have hone : (1 : ℚ) = (2 ^ p : ℕ) * 2 ^ (-p : ℤ) := by
      rw [zpow_neg, zpow_natCast]
      push_cast
      exact (mul_inv_cancel₀ (by positivity)).symm
    rw [hvalue, hone] at h
    have hlt : m * 2 ^ d < 2 ^ p := by exact_mod_cast lt_of_mul_lt_mul_right h hpos.le
    have hle : ((m * 2 ^ d : ℕ) : ℚ) + 1 ≤ (2 ^ p : ℕ) := by exact_mod_cast hlt
    have hmul := mul_le_mul_of_nonneg_right hle hpos.le
    rw [add_mul, one_mul, ← hone, ← hvalue] at hmul
    linarith

theorem roundBits_mul_le_of_le (hp : 0 < p) (hn : 0 ≤ n) (hround : roundBits p n ≤ n)
    (hs : 0 ≤ s) (hs1 : s ≤ 1) : roundBits p (roundBits p n * s) ≤ n := by
  have hpos := roundBits_nonneg hp hn
  exact (roundBits_le (representable_roundBits hp hn) (mul_nonneg hpos hs)
    (mul_le_of_le_one_right hpos hs1)).trans hround

/-- A fraction below one makes up for the rounding of the number. -/
theorem roundBits_mul_le_of_lt_one (hp : 0 < p) (hn : 0 ≤ n) (hs : Representable p s)
    (hs1 : s < 1) : roundBits p (roundBits p n * s) ≤ n := by
  rcases le_or_gt (roundBits p n) n with hround | hround
  · exact roundBits_mul_le_of_le hp hn hround hs.nonneg hs1.le
  · have hnpos : 0 < n := by
      rcases hn.eq_or_lt with rfl | hpos
      · exact absurd hround (roundBits_zero p).not_gt
      · exact hpos
    have hpos := two_zpow_pos (lastBit p n)
    obtain ⟨hlow, hhigh⟩ := significand_bounds hp hnpos
    obtain ⟨hbin, -⟩ := binade p hnpos
    -- the neighbour below the rounded number is not above the number
    have hprev : ((nearestEven (n / 2 ^ lastBit p n) - 1 : ℤ) : ℚ) * 2 ^ lastBit p n ≤ n := by
      push_cast
      exact (le_div_iff₀ hpos).mp (nearestEven_sub_one_le _)
    have hup : (2 : ℚ) ^ (p - 1) < nearestEven (n / 2 ^ lastBit p n) := by
      rw [show lastBit p n + p - 1 = (p - 1 : ℕ) + lastBit p n by omega, two_zpow_add,
        zpow_natCast] at hbin
      exact lt_of_mul_lt_mul_right (hbin.trans_lt hround) hpos.le
    refine le_trans ?_ hprev
    apply roundBits_le_of_lt_midpoint _ hp (by omega) (mul_nonneg (hn.trans hround.le) hs.nonneg)
    · have hhalf : (1 : ℚ) / 2 < nearestEven (n / 2 ^ lastBit p n) * 2 ^ (-p : ℤ) := by
        have hone : (2 : ℚ) ^ (p - 1) * 2 ^ (-p : ℤ) = 1 / 2 := by
          rw [← zpow_natCast, ← two_zpow_add, show ((p - 1 : ℕ) : ℤ) + -p = -1 by omega]
          norm_num
        rw [← hone]
        exact mul_lt_mul_of_pos_right hup (two_zpow_pos _)
      have hle := mul_le_mul_of_nonneg_left (hs.le_of_lt_one hp hs1) (hn.trans hround.le)
      refine hle.trans_lt ?_
      have hmul := mul_lt_mul_of_pos_right hhalf hpos
      unfold roundBits
      push_cast
      linarith
    · have hup : (2 : ℤ) ^ (p - 1) < nearestEven (n / 2 ^ lastBit p n) := by exact_mod_cast hup
      omega

end Products

end SignificantBits
