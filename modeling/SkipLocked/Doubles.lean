-- Numbers in double precision, as rationals: 53 bits, rounded to the nearest,
-- and to the even one at the middle. The exponent has no bounds here, so the
-- laws are those of numbers that neither overflow nor underflow.
import Mathlib.Algebra.Order.Round
import Mathlib.Data.Int.Log
import Mathlib.Data.Rat.Floor
import Mathlib.Tactic.FieldSimp
import Mathlib.Tactic.Linarith
import Mathlib.Tactic.Positivity

namespace double_precision

/-- The integer nearest to `q`, the even one at the middle. -/
def roundEven (q : ℚ) : ℤ :=
  if q - ⌊q⌋ < 1 / 2 then ⌊q⌋
  else if 1 / 2 < q - ⌊q⌋ then ⌊q⌋ + 1
  else if ⌊q⌋ % 2 = 0 then ⌊q⌋
  else ⌊q⌋ + 1

/-- The exponent of the last of the 53 bits of `q`. -/
def lastPlace (q : ℚ) : ℤ := Int.log 2 |q| - 52

/-- The double nearest to `q`. -/
def toDouble (q : ℚ) : ℚ := roundEven (q / 2 ^ lastPlace q) * 2 ^ lastPlace q

/-- The integer part of a number, towards zero. -/
def truncate (q : ℚ) : ℤ := if 0 ≤ q then ⌊q⌋ else ⌈q⌉

theorem roundEven_intCast (n : ℤ) : roundEven n = n := by
  unfold roundEven
  rw [Int.floor_intCast, sub_self, if_pos (by norm_num)]

theorem roundEven_error (q : ℚ) : |(roundEven q : ℚ) - q| ≤ 1 / 2 := by
  have hle := Int.floor_le q
  have hlt := Int.lt_floor_add_one q
  unfold roundEven
  rw [abs_le]
  split
  · constructor <;> linarith
  · split
    · push_cast
      constructor <;> linarith
    · split
      · constructor <;> linarith
      · push_cast
        constructor <;> linarith

/-- The error of a double, relative to the number. -/
theorem toDouble_error (q : ℚ) : |toDouble q - q| ≤ |q| / 2 ^ 53 := by
  rcases eq_or_ne q 0 with rfl | hq
  · have hzero : roundEven 0 = 0 := by exact_mod_cast roundEven_intCast 0
    simp [toDouble, hzero]
  · have hpos : (0 : ℚ) < 2 ^ lastPlace q := zpow_pos (by norm_num) _
    have hround := roundEven_error (q / 2 ^ lastPlace q)
    have hsplit : toDouble q - q =
        ((roundEven (q / 2 ^ lastPlace q) : ℚ) - q / 2 ^ lastPlace q) * 2 ^ lastPlace q := by
      unfold toDouble
      field_simp
    have hlog : (2 : ℚ) ^ Int.log 2 |q| ≤ |q| := by
      have h := Int.zpow_log_le_self (b := 2) (r := |q|) (by decide) (abs_pos.mpr hq)
      exact_mod_cast h
    have hplace : (2 : ℚ) ^ lastPlace q * 2 ^ 52 = 2 ^ Int.log 2 |q| := by
      unfold lastPlace
      rw [← zpow_natCast, ← zpow_add₀ (by norm_num)]
      congr 1
      push_cast
      ring
    rw [hsplit, abs_mul, abs_of_pos hpos]
    calc |(roundEven (q / 2 ^ lastPlace q) : ℚ) - q / 2 ^ lastPlace q| * 2 ^ lastPlace q
        ≤ 1 / 2 * 2 ^ lastPlace q := by gcongr
      _ = 2 ^ Int.log 2 |q| / 2 ^ 53 := by rw [← hplace]; ring
      _ ≤ |q| / 2 ^ 53 := by gcongr

/-- An integer of 53 bits is a double. -/
theorem toDouble_intCast {n : ℤ} (h : |n| < 2 ^ 53) : toDouble n = n := by
  rcases eq_or_ne n 0 with rfl | hn
  · have hzero : roundEven 0 = 0 := by exact_mod_cast roundEven_intCast 0
    simp [toDouble, hzero]
  · have hlog : Int.log 2 |(n : ℚ)| ≤ 52 := by
      have hlt : |(n : ℚ)| < ((2 : ℕ) : ℚ) ^ (53 : ℤ) := by
        have hcast : ((|n| : ℤ) : ℚ) < ((2 ^ 53 : ℤ) : ℚ) := by exact_mod_cast h
        rw [Int.cast_abs] at hcast
        refine hcast.trans_eq ?_
        norm_num
      have hpos : 0 < |(n : ℚ)| := abs_pos.mpr (by exact_mod_cast hn)
      have := (Int.lt_zpow_iff_log_lt (by decide) hpos).mp hlt
      omega
    obtain ⟨k, hk⟩ : ∃ k : ℕ, lastPlace n = -(k : ℤ) := by
      refine ⟨(52 - Int.log 2 |(n : ℚ)|).toNat, ?_⟩
      unfold lastPlace
      omega
    unfold toDouble
    rw [hk, zpow_neg, zpow_natCast, div_inv_eq_mul]
    have hcast : (n : ℚ) * 2 ^ k = ((n * 2 ^ k : ℤ) : ℚ) := by push_cast; ring
    rw [hcast, roundEven_intCast]
    push_cast
    field_simp

/-- The error of two roundings, of a number and of a multiple of it. -/
theorem toDouble_mul_error (q c : ℚ) :
    |toDouble (toDouble q * c) - q * c| ≤ |q * c| * 3 / 2 ^ 53 := by
  have hinner : |toDouble q * c - q * c| ≤ |q * c| / 2 ^ 53 := by
    rw [← sub_mul, abs_mul, abs_mul, mul_div_right_comm]
    exact mul_le_mul_of_nonneg_right (toDouble_error q) (abs_nonneg c)
  have houter := toDouble_error (toDouble q * c)
  have hsize : |toDouble q * c| ≤ |q * c| * 2 := by
    have htriangle := abs_sub_abs_le_abs_sub (toDouble q * c) (q * c)
    have hsmall : |q * c| / 2 ^ 53 ≤ |q * c| :=
      div_le_self (abs_nonneg _) (by norm_num)
    linarith
  calc |toDouble (toDouble q * c) - q * c|
      ≤ |toDouble (toDouble q * c) - toDouble q * c| + |toDouble q * c - q * c| :=
        abs_sub_le _ _ _
    _ ≤ |q * c| * 2 / 2 ^ 53 + |q * c| / 2 ^ 53 := by
        refine add_le_add (houter.trans ?_) hinner
        gcongr
    _ = |q * c| * 3 / 2 ^ 53 := by ring

/-- Two roundings keep the sign. -/
theorem toDouble_mul_nonneg {q c : ℚ} (h : 0 ≤ q * c) : 0 ≤ toDouble (toDouble q * c) := by
  have herror := toDouble_mul_error q c
  rw [abs_of_nonneg h] at herror
  have hlow := (abs_le.mp herror).1
  linarith

theorem toDouble_mul_nonpos {q c : ℚ} (h : q * c ≤ 0) : toDouble (toDouble q * c) ≤ 0 := by
  have herror := toDouble_mul_error q c
  rw [abs_of_nonpos h] at herror
  have hhigh := (abs_le.mp herror).2
  linarith

/-! ## The integer part -/

theorem truncate_eq_iff_of_nonneg {q : ℚ} {n : ℤ} (h : 0 ≤ q) :
    truncate q = n ↔ (n : ℚ) ≤ q ∧ q < n + 1 := by
  unfold truncate
  rw [if_pos h]
  exact Int.floor_eq_iff

theorem truncate_eq_iff_of_nonpos {q : ℚ} {n : ℤ} (h : q ≤ 0) :
    truncate q = n ↔ (n : ℚ) - 1 < q ∧ q ≤ n := by
  unfold truncate
  split
  · next hpos =>
    obtain rfl : q = 0 := le_antisymm h hpos
    rw [← Int.ceil_eq_iff, Int.floor_zero, Int.ceil_zero]
  · exact Int.ceil_eq_iff

/-- An integer part is less than 1 away. -/
theorem truncate_error (q : ℚ) : |(truncate q : ℚ) - q| < 1 := by
  rw [abs_lt]
  rcases le_total 0 q with h | h
  · obtain ⟨hle, hlt⟩ := (truncate_eq_iff_of_nonneg h).mp rfl
    constructor <;> linarith
  · obtain ⟨hlt, hle⟩ := (truncate_eq_iff_of_nonpos h).mp rfl
    constructor <;> linarith

end double_precision
