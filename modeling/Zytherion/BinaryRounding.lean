import Mathlib.Data.Int.Log
import Mathlib.Data.Rat.Floor
import Mathlib.Tactic.FieldSimp
import Mathlib.Tactic.Linarith
import Mathlib.Tactic.NormNum

/-!
# Rounding to a binary format

A number is rounded to `p` binary digits, to the nearest such number, and to the one with
an even last digit if two are equally near. The exponent is not bounded: numbers far from
the largest and the smallest of a format round as they do in the format.
-/
namespace Zytherion.BinaryRounding

/-- The nearest integer, the even one of two. -/
def roundEven (x : ℚ) : ℤ :=
  if x - ⌊x⌋ < 1 / 2 then ⌊x⌋
  else if 1 / 2 < x - ⌊x⌋ then ⌊x⌋ + 1
  else if ⌊x⌋ % 2 = 0 then ⌊x⌋ else ⌊x⌋ + 1

theorem roundEven_error (x : ℚ) : |(roundEven x : ℚ) - x| ≤ 1 / 2 := by
  have hlo := Int.floor_le x
  have hhi := Int.lt_floor_add_one x
  unfold roundEven
  split_ifs with h₁ h₂ h₃ <;> rw [abs_le] <;> push_cast <;> constructor <;> linarith

@[simp] theorem roundEven_intCast (n : ℤ) : roundEven n = n := by
  rw [roundEven, Int.floor_intCast, sub_self, if_pos (by norm_num)]

/-- The unit in the last of `p` digits. -/
def ulp (p : ℕ) (x : ℚ) : ℚ := 2 ^ (Int.log 2 |x| + 1 - p)

def roundTo (p : ℕ) (x : ℚ) : ℚ := if x = 0 then 0 else roundEven (x / ulp p x) * ulp p x

section Rounding
variable {p : ℕ} {x : ℚ}

theorem ulp_pos (p : ℕ) (x : ℚ) : 0 < ulp p x := zpow_pos (by norm_num) _

theorem ulp_le (hx : x ≠ 0) : ulp p x ≤ |x| * 2 ^ (1 - (p : ℤ)) := by
  have hlog : (2 : ℚ) ^ Int.log 2 |x| ≤ |x| := by
    have := Int.zpow_log_le_self (b := 2) (by norm_num) (abs_pos.mpr hx)
    exact_mod_cast this
  have hsplit : ulp p x = 2 ^ Int.log 2 |x| * 2 ^ (1 - (p : ℤ)) := by
    rw [ulp, ← zpow_add₀ (by norm_num), add_sub_assoc]
  rw [hsplit]
  exact mul_le_mul_of_nonneg_right hlog (zpow_pos (by norm_num) _).le

/-- The relative error of a rounding. -/
theorem roundTo_error (p : ℕ) (x : ℚ) : |roundTo p x - x| ≤ |x| * 2 ^ (-(p : ℤ)) := by
  unfold roundTo
  split_ifs with hx
  · simp [hx]
  · have hulp := ulp_pos p x
    have hdiff : roundEven (x / ulp p x) * ulp p x - x =
        (roundEven (x / ulp p x) - x / ulp p x) * ulp p x := by
      rw [sub_mul, div_mul_cancel₀ _ hulp.ne']
    calc |roundEven (x / ulp p x) * ulp p x - x|
        = |roundEven (x / ulp p x) - x / ulp p x| * ulp p x := by
          rw [hdiff, abs_mul, abs_of_pos hulp]
      _ ≤ 1 / 2 * ulp p x := mul_le_mul_of_nonneg_right (roundEven_error _) hulp.le
      _ ≤ 1 / 2 * (|x| * 2 ^ (1 - (p : ℤ))) := by
          have := ulp_le (p := p) hx
          linarith
      _ = |x| * 2 ^ (-(p : ℤ)) := by
          rw [sub_eq_add_neg, zpow_add₀ (by norm_num)]
          ring

/-- Integers of at most `p` digits are exact. -/
theorem roundTo_natCast {n : ℕ} (h : n < 2 ^ p) : roundTo p n = n := by
  unfold roundTo
  split_ifs with hn
  · exact hn.symm
  · have hpos : n ≠ 0 := by exact_mod_cast hn
    have hlog : Nat.log 2 n + 1 ≤ p := Nat.log_lt_of_lt_pow hpos h
    obtain ⟨k, hk⟩ := Nat.exists_eq_add_of_le hlog
    have hulp : ulp p n = (2 ^ k)⁻¹ := by
      have hexp : Int.log 2 |(n : ℚ)| + 1 - (p : ℤ) = -(k : ℤ) := by
        rw [Nat.abs_cast, Int.log_natCast, hk]
        push_cast
        ring
      rw [ulp, hexp, zpow_neg, zpow_natCast]
    have hscaled : (n : ℚ) / ulp p n = ((n * 2 ^ k : ℕ) : ℤ) := by
      rw [hulp, div_inv_eq_mul]
      push_cast
      ring
    rw [hscaled, roundEven_intCast, ← hscaled, div_mul_cancel₀ _ (ulp_pos p n).ne']

/-- A rounded quotient lies on the same side of an integer as the quotient, if the format
has digits enough for the integer and the divisor together. -/
theorem roundTo_div_lt_iff {sum size t : ℕ} (hsize : 0 < size) (hdigits : t * size < 2 ^ p) :
    roundTo p (sum / size) < t ↔ sum < t * size := by
  have hsizeq : (0 : ℚ) < size := by exact_mod_cast hsize
  have hdigitsq : (t : ℚ) * size + 1 ≤ 2 ^ p := by exact_mod_cast hdigits
  have herror := abs_le.mp (roundTo_error p (sum / size : ℚ))
  rw [abs_of_nonneg (by positivity), zpow_neg, zpow_natCast] at herror
  obtain ⟨hlo, hhi⟩ := herror
  have hpow : (1 : ℚ) ≤ 2 ^ p := one_le_pow₀ (by norm_num)
  have hpos : (0 : ℚ) < size * 2 ^ p := by positivity
  rcases lt_trichotomy sum (t * size) with hlt | heq | hgt
  · refine iff_of_true ?_ hlt
    have hnext : (sum : ℚ) + 1 ≤ t * size := by exact_mod_cast hlt
    have hbound : roundTo p (sum / size : ℚ) ≤ sum * (2 ^ p + 1) / (size * 2 ^ p) := by
      have hsum : (sum / size : ℚ) + sum / size * (2 ^ p)⁻¹ =
          sum * (2 ^ p + 1) / (size * 2 ^ p) := by field_simp
      linarith
    refine hbound.trans_lt ?_
    rw [div_lt_iff₀ hpos]
    nlinarith
  · refine iff_of_false ?_ heq.not_lt
    have hquotient : (sum / size : ℚ) = t := by
      rw [heq, Nat.cast_mul, mul_div_cancel_right₀ _ hsizeq.ne']
    have ht : t < 2 ^ p := (Nat.le_mul_of_pos_right t hsize).trans_lt hdigits
    rw [hquotient, roundTo_natCast ht]
    exact lt_irrefl _
  · refine iff_of_false (not_lt.mpr ?_) hgt.not_gt
    have hnext : (t : ℚ) * size + 1 ≤ sum := by exact_mod_cast hgt
    have hbound : sum * (2 ^ p - 1) / (size * 2 ^ p) ≤ roundTo p (sum / size : ℚ) := by
      have hdiff : (sum / size : ℚ) - sum / size * (2 ^ p)⁻¹ =
          sum * (2 ^ p - 1) / (size * 2 ^ p) := by field_simp
      linarith
    refine le_trans ?_ hbound
    rw [le_div_iff₀ hpos]
    nlinarith

end Rounding

end Zytherion.BinaryRounding
