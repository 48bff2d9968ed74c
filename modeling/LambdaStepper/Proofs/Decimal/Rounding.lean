import LambdaStepper.Decimal.Binary64
import Mathlib.Algebra.Order.Field.Power
import Mathlib.Algebra.Order.Field.Rat
import Mathlib.Data.Rat.Floor
import Mathlib.Tactic.FieldSimp
import Mathlib.Tactic.Linarith

/-! # How far rounding goes

Rounding to binary64 takes a number to a multiple of a unit of which no power of two up to the number has
more than 2 ^ 52 (`power_floorLog_le`), and to the nearest one.  So below 2 ^ 51 it moves a number by an
eighth at most (`abs_roundBinary64_sub_le`). -/

namespace LambdaStepper.Decimal

theorem power_eq_zpow (base : Nat) (k : Int) : power base k = (base : Rat) ^ k := by
  unfold power
  split
  · next h =>
    obtain ⟨n, rfl⟩ := Int.eq_ofNat_of_zero_le h
    simp
  · next h =>
    obtain ⟨n, hn⟩ := Int.eq_ofNat_of_zero_le (by omega : 0 ≤ -k)
    obtain rfl : k = -(n : Int) := by omega
    simp

theorem magnitude_eq_abs (x : Rat) : magnitude x = |x| := by
  unfold magnitude
  split
  · next h => exact (abs_of_neg h).symm
  · next h => exact (abs_of_nonneg (not_lt.mp h)).symm

/-- The power of two of the leading digit is not greater than the number. -/
theorem power_floorLog_le {x : Rat} (hx : 0 < x) : power 2 (floorLog 2 x) ≤ x := by
  unfold floorLog
  dsimp only
  split
  · assumption
  · -- one digit less: the numerator has its first digit, and the denominator no more than its digits
    have hnum : 0 < x.num := Rat.num_pos.mpr hx
    have hlow : 2 ^ ((Nat.toDigits 2 x.num.natAbs).length - 1) ≤ x.num.natAbs := by
      by_contra h
      have hpos := Nat.length_toDigits_pos (b := 2) (n := x.num.natAbs)
      by_cases hone : (Nat.toDigits 2 x.num.natAbs).length = 1
      · rw [hone] at h
        omega
      · have := (Nat.length_toDigits_le_iff (b := 2) (by omega) (by omega)).mpr (not_le.mp h)
        omega
    have hhigh : x.den < 2 ^ (Nat.toDigits 2 x.den).length :=
      (Nat.length_toDigits_le_iff (by omega) Nat.length_toDigits_pos).mp le_rfl
    have hpos := Nat.length_toDigits_pos (b := 2) (n := x.num.natAbs)
    generalize (Nat.toDigits 2 x.num.natAbs).length = a at *
    generalize (Nat.toDigits 2 x.den).length = b at *
    have hnum' : (2 : Rat) ^ (a - 1) ≤ x.num := by
      have : ((2 ^ (a - 1) : Nat) : Int) ≤ x.num := by omega
      exact_mod_cast this
    have hden : (0 : Rat) < x.den := by exact_mod_cast x.den_pos
    have hden' : (x.den : Rat) ≤ 2 ^ b := by exact_mod_cast hhigh.le
    rw [power_eq_zpow, show (a : Int) - b - 1 = ((a - 1 : Nat) : Int) - (b : Nat) by omega,
      zpow_sub₀ (by norm_num), zpow_natCast, zpow_natCast]
    push_cast
    calc (2 : Rat) ^ (a - 1) / 2 ^ b ≤ x.num / 2 ^ b := by gcongr
      _ ≤ x.num / x.den := by
          apply div_le_div_of_nonneg_left _ hden hden'
          exact_mod_cast hnum.le
      _ = x := Rat.num_div_den x

theorem abs_roundHalfEven_sub_le (x : Rat) : |(roundHalfEven x : Rat) - x| ≤ 1 / 2 := by
  have hfloor : ((x.floor : Int) : Rat) ≤ x := Rat.floor_le x
  have hlt : x - 1 < (x.floor : Int) := Rat.lt_floor
  unfold roundHalfEven
  dsimp only
  rw [abs_le]
  split_ifs <;> push_cast <;> constructor <;> linarith

/-- Below 2 ^ 51 rounding moves a number by an eighth at most. -/
theorem abs_roundBinary64_sub_le {x : Rat} (h : |x| < 2 ^ 51) : |roundBinary64 x - x| ≤ 1 / 8 := by
  unfold roundBinary64
  split
  · next hx => simp [hx]
  · next hx =>
    rw [magnitude_eq_abs]
    have hlog : floorLog 2 |x| ≤ 50 := by
      have hle := (power_floorLog_le (abs_pos.mpr hx)).trans_lt h
      rw [power_eq_zpow] at hle
      have : (2 : Rat) ^ floorLog 2 |x| < 2 ^ (51 : Int) := by exact_mod_cast hle
      have := (zpow_lt_zpow_iff_right₀ (by norm_num : (1 : Rat) < 2)).mp this
      omega
    generalize hk : max (floorLog 2 |x| - 52) (-1074) = k
    have hk' : k ≤ -2 := by omega
    have hunit : (0 : Rat) < power 2 k := by
      rw [power_eq_zpow]
      positivity
    have hunit' : power 2 k ≤ 1 / 4 := by
      rw [power_eq_zpow]
      calc ((2 : Nat) : Rat) ^ k ≤ (2 : Rat) ^ (-2 : Int) := by
            push_cast
            exact zpow_le_zpow_right₀ (by norm_num) hk'
        _ = 1 / 4 := by norm_num
    have hround := abs_roundHalfEven_sub_le (x / power 2 k)
    calc |roundHalfEven (x / power 2 k) * power 2 k - x|
        = |(roundHalfEven (x / power 2 k) - x / power 2 k) * power 2 k| := by
          congr 1
          field_simp
      _ = |roundHalfEven (x / power 2 k) - x / power 2 k| * power 2 k := by
          rw [abs_mul, abs_of_pos hunit]
      _ ≤ 1 / 2 * (1 / 4) := by gcongr
      _ = 1 / 8 := by norm_num

end LambdaStepper.Decimal
