import Zytherion.Seizure
import Zytherion.Repayment
import Mathlib.Tactic.FieldSimp

/-!
# What the liquidator is awarded

A liquidator burns the whole debt and is to receive collateral worth at least as
much. The reward the code computes is the debt in collateral times
`LiquidatorReward`, which is meant as a bonus of a few percent; the debt itself
is not part of it. The award covers the debt exactly when that parameter is at
least one, or when no position can be below its threshold and still cover the
seizure.
-/
namespace Zytherion.LiquidatorReward

open GoCall SdkMath HalfEven ChainState StablecoinMsgServer Seizure Repayment

/-- The position is below the threshold, and worth the debt and the penalty. -/
structure Coverable (locked debt : SdkInt) (twap penalty threshold : Dec) : Prop where
  debt_pos : 0 < debt.val
  price_pos : 0 < twap.raw
  below : ∃ ratio, collateralRatio locked debt twap = .ok ratio ∧ ratio.raw < threshold.raw
  covers : debt.val / twap.value * (1 + penalty.value) ≤ locked.val

/-- For every such position the computed award is worth the debt, up to one unit
of collateral and one decimal step. -/
def AwardCoversDebt (penalty reward threshold : Dec) : Prop :=
  ∀ (locked debt : SdkInt) (twap : Dec) (amounts : LiquidationAmounts),
    Coverable locked debt twap penalty threshold →
    liquidationAmounts debt locked twap penalty reward = .ok amounts →
    (debt.val : ℚ) ≤ (amounts.reward.val + 1 + 1 / precision) * twap.value

section Rationals
variable {locked debt n : ℤ} {twap penalty : Dec}

theorem precision_cast_pos : (0 : ℚ) < precision := by exact_mod_cast precision_pos

theorem covers_iff (hp : 0 < twap.raw) :
    debt / twap.value * (1 + penalty.value) ≤ (locked : ℚ) ↔
      debt * (precision + penalty.raw) ≤ locked * twap.raw := by
  have hE := precision_cast_pos
  have hp' : (0 : ℚ) < twap.raw := by exact_mod_cast hp
  have hleft : debt / twap.value * (1 + penalty.value) =
      debt * (precision + penalty.raw) / (twap.raw : ℚ) := by
    unfold Dec.value
    field_simp
  rw [hleft, div_le_iff₀ hp']
  exact_mod_cast Iff.rfl

theorem award_iff : (debt : ℚ) ≤ (n + 1 + 1 / precision) * twap.value ↔
    debt * (precision * precision) ≤ (n * precision + precision + 1) * twap.raw := by
  have hE := precision_cast_pos
  have hright : ((n : ℚ) + 1 + 1 / precision) * twap.value =
      (n * precision + precision + 1) * twap.raw / (precision * precision) := by
    unfold Dec.value
    field_simp
  rw [hright, le_div_iff₀ (mul_pos hE hE)]
  exact_mod_cast Iff.rfl

end Rationals

section Covered
variable {locked debt : SdkInt} {twap penalty reward threshold : Dec}

/-- The rounded quotient falls short of the debt in collateral by less than a step. -/
theorem inCollateral_error {debt price : ℤ} (hp : 0 < price) :
    debt * (precision * precision) < (inCollateral debt price + 1) * price := by
  have hE := precision_pos
  have hround := (halfEven_error hE (debt * precision * (precision * precision) / price)).2
  have hfloor := Int.lt_ediv_add_one_mul_self (debt * precision * (precision * precision)) hp
  unfold inCollateral
  generalize debt * precision * (precision * precision) / price = f at *
  generalize halfEven precision f = c at *
  have hstep : f + 1 ≤ (c + 1) * precision := by
    have htwo : 2 ≤ precision := by decide
    rw [add_mul, one_mul]
    omega
  refine lt_of_mul_lt_mul_right ?_ hE.le
  calc debt * (precision * precision) * precision
      = debt * precision * (precision * precision) := by ring
    _ < (f + 1) * price := hfloor
    _ ≤ (c + 1) * precision * price := mul_le_mul_of_nonneg_right hstep hp.le
    _ = (c + 1) * price * precision := by ring

/-- A multiple of at least one is worth the debt up to the loss allowed. -/
theorem portion_covers {debt price factor : ℤ} (hd : 0 ≤ debt) (hp : 0 < price)
    (hf : precision ≤ factor) : debt * (precision * precision) ≤
      (portion (inCollateral debt price) factor * precision + precision + 1) * price := by
  have hmono := portion_mono (inCollateral_nonneg hd hp) hf
  rw [portion_one] at hmono
  have hcut := Int.lt_ediv_add_one_mul_self (inCollateral debt price) precision_pos
  have herror : debt * (precision * precision) < (inCollateral debt price + 1) * price :=
    inCollateral_error hp
  have hunits : inCollateral debt price + 1 ≤
      portion (inCollateral debt price) factor * precision + precision + 1 := by
    have hmul := mul_le_mul_of_nonneg_right hmono precision_pos.le
    rw [add_mul, one_mul] at hcut
    omega
  exact herror.le.trans (mul_le_mul_of_nonneg_right hunits hp.le)

/-- The ratio of a position that covers debt and penalty is at least one plus the penalty. -/
theorem ratio_ge {ratio : Dec} (hd : 0 < debt.val) (hpen : 0 ≤ penalty.raw)
    (hcov : debt.val * (precision + penalty.raw) ≤ locked.val * twap.raw)
    (h : collateralRatio locked debt twap = .ok ratio) : precision + penalty.raw ≤ ratio.raw := by
  have hE := precision_pos
  simp only [collateralRatio, checked_bind_ok] at h
  obtain ⟨usd, hvalued, hratio⟩ := h
  obtain ⟨husd, -⟩ := collateralValue_ok hvalued
  have hone : 0 ≤ precision + penalty.raw := by omega
  have hvalue : 0 ≤ usd.raw := by
    rw [husd]
    exact (mul_nonneg hd.le hone).trans hcov
  apply Dec.le_quo (b := Dec.ofInt debt) hvalue (mul_pos hd hE) hratio
  rw [husd, Dec.ofInt_raw]
  calc (precision + penalty.raw) * (debt.val * precision)
      = debt.val * (precision + penalty.raw) * precision := by ring
    _ ≤ locked.val * twap.raw * precision := mul_le_mul_of_nonneg_right hcov hE.le

theorem award_covers_of (h₀ : 0 ≤ reward.raw) (hpen : reward.raw ≤ penalty.raw)
    (h : precision ≤ reward.raw ∨ threshold.raw ≤ precision + penalty.raw) :
    AwardCoversDebt penalty reward threshold := by
  intro locked debt twap amounts hcov hamounts
  obtain ⟨hd, hp, ⟨ratio, hratio, hbelow⟩, hcovers⟩ := hcov
  rw [covers_iff hp] at hcovers
  rw [award_iff]
  have hreward : precision ≤ reward.raw := by
    have hge := ratio_ge hd (h₀.trans hpen) hcovers hratio
    omega
  have ham := liquidationAmounts_ok hd.le hp (h₀.trans hpen) h₀ hamounts
  have haward := portion_covers hd.le hp hreward
  have hseize := portion_covers hd.le hp (show precision ≤ precision + penalty.raw by omega)
  have hlocked : debt.val * (precision * precision) ≤
      (locked.val * precision + precision + 1) * twap.raw := by
    have hE := precision_pos
    have hmul : debt.val * (precision * precision) ≤ locked.val * twap.raw * precision := by
      calc debt.val * (precision * precision) = debt.val * precision * precision := by ring
        _ ≤ debt.val * (precision + penalty.raw) * precision := by gcongr; omega
        _ ≤ locked.val * twap.raw * precision := mul_le_mul_of_nonneg_right hcovers hE.le
    nlinarith
  -- the award is one of three amounts, each of which is worth the debt
  rw [ham.reward, ham.seized]
  rcases min_choice (portion (inCollateral debt.val twap.raw) reward.raw)
    (min (portion (inCollateral debt.val twap.raw) (precision + penalty.raw)) locked.val) with h | h
  · rw [h]
    exact haward
  · rw [h]
    rcases min_choice (portion (inCollateral debt.val twap.raw) (precision + penalty.raw))
      locked.val with h' | h'
    · rw [h']
      exact hseize
    · rw [h']
      exact hlocked

end Covered

/-- The smallest price, at which a debt of two is a large amount of collateral. -/
def smallestPrice : Dec := ⟨1⟩

def debtOfTwo : SdkInt := ⟨2, by decide⟩

section Short
variable {penalty reward threshold : Dec}

/-- The debt of two in collateral is exact. -/
theorem debtOfTwo_quo : (Dec.ofInt debtOfTwo).quo smallestPrice =
    .ok ⟨2 * precision * precision⟩ := by
  decide +kernel

/-- Multiples of it are exact as well. -/
theorem two_mul_ok {factor c : Dec} : (⟨2 * precision * precision⟩ : Dec).mul factor = .ok c ↔
    c.raw = 2 * factor.raw * precision ∧ (2 * factor.raw * precision).natAbs < decBound := by
  have hchop : chopPrecisionAndRound (2 * precision * precision * factor.raw) =
      2 * factor.raw * precision := by
    have hassoc : 2 * precision * precision * factor.raw =
        (Dec.ofInt debtOfTwo).raw * (factor.raw * precision) := by
      show _ = 2 * precision * (factor.raw * precision)
      ring
    rw [hassoc, Dec.chop_ofInt_mul debtOfTwo ⟨factor.raw * precision⟩]
    show 2 * (factor.raw * precision) = _
    ring
  rw [Dec.mul_ok, hchop]

theorem short_amounts (h₀ : 0 ≤ reward.raw) (hle : reward.raw ≤ penalty.raw) {locked : SdkInt}
    (hlocked : locked.val = 2 * (precision + penalty.raw))
    (hfits : 2 * (precision + penalty.raw) * precision < decBound) :
    ∃ amounts, liquidationAmounts debtOfTwo locked smallestPrice penalty reward = .ok amounts ∧
      amounts.reward.val = 2 * reward.raw := by
  have hE := precision_pos
  have hreward : 2 * reward.raw * precision ≤ 2 * (precision + penalty.raw) * precision :=
    mul_le_mul_of_nonneg_right (by omega) hE.le
  have hreward₀ : 0 ≤ 2 * reward.raw * precision := by positivity
  have hfactor : (precision + penalty.raw) * 1 ≤ 2 * (precision + penalty.raw) * precision := by
    have hone : 1 ≤ precision := by decide
    have hsum : 0 ≤ precision + penalty.raw := by omega
    nlinarith
  obtain ⟨paid, hpaid, hpaid'⟩ := Dec.truncateInt_returns (a := ⟨2 * reward.raw * precision⟩)
    hreward₀ (lt_of_le_of_lt hreward hfits)
  obtain ⟨all, hall, hall'⟩ := Dec.truncateInt_returns
    (a := ⟨2 * (precision + penalty.raw) * precision⟩) (hreward₀.trans hreward) hfits
  rw [Int.mul_ediv_cancel _ hE.ne'] at hpaid' hall'
  have hwidth : ((all.capAt locked).val - (paid.capAt (all.capAt locked)).val).natAbs < intBound := by
    have hw := locked.width
    simp only [SdkInt.capAt_val]
    omega
  simp only [liquidationAmounts, checked_bind_ok, pure, Except.pure, Except.ok.injEq]
  refine ⟨_, ⟨_, debtOfTwo_quo, ⟨precision + penalty.raw⟩, Dec.add_ok.mpr ⟨rfl, ?_⟩,
    ⟨2 * (precision + penalty.raw) * precision⟩, two_mul_ok.mpr ⟨rfl, ?_⟩, all, hall,
    ⟨2 * reward.raw * precision⟩, two_mul_ok.mpr ⟨rfl, ?_⟩, paid, hpaid, ⟨_, hwidth⟩,
    SdkInt.sub_ok.mpr rfl, rfl⟩, ?_⟩
  · show (precision + penalty.raw).natAbs < decBound
    omega
  · show (2 * (precision + penalty.raw) * precision).natAbs < decBound
    omega
  · omega
  · show (paid.capAt (all.capAt locked)).val = _
    simp only [SdkInt.capAt_val]
    omega

theorem short_coverable (hpen : 0 ≤ penalty.raw) (hbelow : precision + penalty.raw < threshold.raw)
    {locked : SdkInt} (hlocked : locked.val = 2 * (precision + penalty.raw))
    (hfits : 2 * (precision + penalty.raw) * precision < decBound) :
    Coverable locked debtOfTwo smallestPrice penalty threshold := by
  have hE := precision_pos
  have hwide : 2 * (precision + penalty.raw) * 1 ≤ 2 * (precision + penalty.raw) * precision :=
    mul_le_mul_of_nonneg_left (by decide) (by omega)
  have hratio : (2 * (precision + penalty.raw) * (precision * precision)).tdiv (2 * precision) =
      (precision + penalty.raw) * precision := by
    rw [show 2 * (precision + penalty.raw) * (precision * precision) =
      (precision + penalty.raw) * precision * (2 * precision) by ring]
    exact Int.mul_tdiv_cancel _ (by decide)
  have hchop : chopPrecisionAndRound ((precision + penalty.raw) * precision) =
      precision + penalty.raw := by
    rw [chop_of_nonneg (mul_nonneg (by omega) hE.le), halfEven_mul_self hE]
  have hvalue : collateralValue locked smallestPrice = .ok ⟨2 * (precision + penalty.raw)⟩ := by
    rw [collateralValue, Dec.mul_ok, Dec.chop_ofInt_mul, hlocked]
    show 2 * (precision + penalty.raw) = 2 * (precision + penalty.raw) * 1 ∧
      (2 * (precision + penalty.raw) * 1).natAbs < decBound
    exact ⟨(mul_one _).symm, by omega⟩
  refine ⟨by decide, by decide, ⟨⟨precision + penalty.raw⟩, ?_, hbelow⟩, ?_⟩
  · simp only [collateralRatio, checked_bind_ok, Dec.quo_ok]
    refine ⟨_, hvalue, by decide, ?_, ?_⟩
    · show _ = chopPrecisionAndRound ((2 * (precision + penalty.raw) * (precision * precision)).tdiv
        (2 * precision))
      rw [hratio, hchop]
    · show (chopPrecisionAndRound ((2 * (precision + penalty.raw) * (precision * precision)).tdiv
        (2 * precision))).natAbs < decBound
      rw [hratio, hchop]
      omega
  · rw [covers_iff (by decide), hlocked]
    exact (mul_one _).symm.le

/-- A reward below one leaves some coverable position's liquidator short. -/
theorem short_of_reward (h₀ : 0 ≤ reward.raw) (hle : reward.raw ≤ penalty.raw)
    (hone : reward.raw < precision) (hbelow : precision + penalty.raw < threshold.raw)
    (hfits : 2 * (precision + penalty.raw) * precision < decBound) :
    ¬ AwardCoversDebt penalty reward threshold := by
  have hE := precision_pos
  have hwidth : (2 * (precision + penalty.raw)).natAbs < intBound := by
    have hd : (decBound : ℤ) = 2 ^ 256 * 2 ^ 59 := by norm_num [decBound]
    have hi : (intBound : ℤ) = 2 ^ 256 := by norm_num [intBound]
    rw [precision_eq] at hfits ⊢
    omega
  obtain ⟨locked, hlocked⟩ : ∃ locked : SdkInt, locked.val = 2 * (precision + penalty.raw) :=
    ⟨⟨_, hwidth⟩, rfl⟩
  obtain ⟨amounts, hamounts, hreward⟩ := short_amounts h₀ hle hlocked hfits
  intro hcovers
  have haward := hcovers locked debtOfTwo smallestPrice amounts
    (short_coverable (h₀.trans hle) hbelow hlocked hfits) hamounts
  rw [award_iff, hreward] at haward
  have hless : (2 * reward.raw + 2) * precision ≤ 2 * precision * precision :=
    mul_le_mul_of_nonneg_right (by omega) hE.le
  have htwo : 2 ≤ precision := by decide
  change 2 * (precision * precision) ≤ (2 * reward.raw * precision + precision + 1) * 1 at haward
  nlinarith

end Short

/-- Where the reward is at least one, or where nothing below the threshold covers
the seizure, the award covers the debt. Conversely these are the only cases, as
long as twice the seizure factor still fits a decimal product. -/
theorem award_covers_debt_iff (penalty reward threshold : Dec) (h₀ : 0 ≤ reward.raw)
    (hle : reward.raw ≤ penalty.raw) :
    (precision ≤ reward.raw ∨ threshold.raw ≤ precision + penalty.raw →
      AwardCoversDebt penalty reward threshold) ∧
    (2 * (precision + penalty.raw) * precision < decBound →
      AwardCoversDebt penalty reward threshold →
      precision ≤ reward.raw ∨ threshold.raw ≤ precision + penalty.raw) := by
  refine ⟨award_covers_of h₀ hle, ?_⟩
  intro hfits hcovers
  by_contra hnot
  rw [not_or, not_le, not_le] at hnot
  exact short_of_reward h₀ hle hnot.1 hnot.2 hfits hcovers

/-- With a reward of 1.2 below a penalty of 1.5 the liquidator is paid. -/
theorem award_covers_debt_iff_generous :
    AwardCoversDebt (.newDecWithPrec 150 2) (.newDecWithPrec 120 2) (.newDecWithPrec 300 2) :=
  (award_covers_debt_iff (.newDecWithPrec 150 2) (.newDecWithPrec 120 2) (.newDecWithPrec 300 2)
    (by decide) (by decide)).1 (.inl (by decide))

/-- With the default parameters, who burns 100 for a position of 120 at price one
is awarded 8. -/
theorem default_award_short :
    Coverable (.newInt 120) (.newInt 100) Dec.one defaultStablecoinParams.liquidationPenalty
        (.newDecWithPrec 150 2) ∧
      liquidationAmounts (.newInt 100) (.newInt 120) Dec.one
          defaultStablecoinParams.liquidationPenalty defaultStablecoinParams.liquidatorReward =
        .ok ⟨.newInt 110, .newInt 8, .newInt 102⟩ ∧
      ¬ (((100 : ℤ) : ℚ) ≤ ((8 : ℤ) + 1 + 1 / precision) * Dec.one.value) := by
  refine ⟨⟨by decide, by decide, ⟨⟨1200000000000000000⟩, by decide +kernel, by decide⟩, ?_⟩,
    by decide +kernel, ?_⟩
  · rw [covers_iff (by decide)]
    decide
  · rw [award_iff]
    decide

end Zytherion.LiquidatorReward
