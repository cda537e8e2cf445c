import Zytherion.StablecoinMsgServer

/-!
# The amounts of a liquidation

The debt is converted into collateral at the price, to eighteen decimals; the
seizure and the reward are multiples of that, cut off to whole units and capped.
Without the checks for width the three amounts are plain integer functions, and
whenever the code computes amounts they are these.
-/
namespace Zytherion.Seizure

open GoCall SdkMath HalfEven StablecoinMsgServer

/-- A debt in units of collateral, counted in steps of `10⁻¹⁸`. -/
def inCollateral (debt price : ℤ) : ℤ := halfEven precision (debt * precision * (precision * precision) / price)

/-- The multiple `factor` of such an amount, in whole units. -/
def portion (amount factor : ℤ) : ℤ := halfEven precision (amount * factor) / precision

section Portions
variable {amount factor larger : ℤ}

theorem portion_nonneg (ha : 0 ≤ amount) (hf : 0 ≤ factor) : 0 ≤ portion amount factor :=
  Int.ediv_nonneg (halfEven_nonneg precision_pos (mul_nonneg ha hf)) precision_pos.le

theorem portion_mono (ha : 0 ≤ amount) (h : factor ≤ larger) :
    portion amount factor ≤ portion amount larger :=
  Int.ediv_le_ediv precision_pos
    (halfEven_mono precision_pos (mul_le_mul_of_nonneg_left h ha))

theorem portion_one (amount : ℤ) : portion amount precision = amount / precision := by
  rw [portion, halfEven_mul_self precision_pos]

theorem inCollateral_nonneg {debt price : ℤ} (hd : 0 ≤ debt) (hp : 0 < price) :
    0 ≤ inCollateral debt price := by
  have hE := precision_pos
  exact halfEven_nonneg hE (Int.ediv_nonneg (by positivity) hp.le)

end Portions

/-- Truncating a rounded product of non-negative decimals. -/
theorem portion_ok {a b c : Dec} {n : SdkInt} (ha : 0 ≤ a.raw) (hb : 0 ≤ b.raw)
    (hmul : a.mul b = .ok c) (hn : c.truncateInt = .ok n) : n.val = portion a.raw b.raw := by
  have hprod := mul_nonneg ha hb
  obtain ⟨hc, -⟩ := Dec.mul_ok.mp hmul
  rw [chop_of_nonneg hprod] at hc
  rw [Dec.truncateInt_ok.mp hn, hc, Int.tdiv_eq_ediv_of_nonneg (halfEven_nonneg precision_pos hprod),
    portion]

/-- The amounts in terms of the inputs. -/
structure Amounts (debt locked price penalty reward : ℤ) (amounts : LiquidationAmounts) : Prop where
  seized : amounts.seized.val = min (portion (inCollateral debt price) (precision + penalty)) locked
  reward : amounts.reward.val = min (portion (inCollateral debt price) reward) amounts.seized.val
  fee : amounts.fee.val = amounts.seized.val - amounts.reward.val

/-- They are in the order they should be. -/
theorem Amounts.bounds {debt locked price penalty reward : ℤ} {amounts : LiquidationAmounts}
    (h : Amounts debt locked price penalty reward amounts) (hd : 0 ≤ debt) (hl : 0 ≤ locked)
    (hp : 0 < price) (hpen : 0 ≤ penalty) (hrew : 0 ≤ reward) :
    0 ≤ amounts.reward.val ∧ amounts.reward.val ≤ amounts.seized.val ∧
      amounts.seized.val ≤ locked := by
  have hcoll := inCollateral_nonneg hd hp
  have hreward₀ := portion_nonneg hcoll hrew
  have hseized₀ := portion_nonneg hcoll (add_nonneg precision_pos.le hpen)
  have hseized := h.seized
  have hreward := h.reward
  omega

theorem liquidationAmounts_ok {debt locked : SdkInt} {twap penalty reward : Dec}
    {amounts : LiquidationAmounts} (hd : 0 ≤ debt.val) (hp : 0 < twap.raw) (hpen : 0 ≤ penalty.raw)
    (hrew : 0 ≤ reward.raw) (h : liquidationAmounts debt locked twap penalty reward = .ok amounts) :
    Amounts debt.val locked.val twap.raw penalty.raw reward.raw amounts := by
  have hE := precision_pos
  have hnum : 0 ≤ debt.val * precision * (precision * precision) := by positivity
  simp only [liquidationAmounts, checked_bind_ok, pure, Except.pure, Except.ok.injEq] at h
  obtain ⟨inColl, hquo, factor, hfactor, toSeize, hseize, seize, hseize', toReward, hreward, rew,
    hreward', fee, hfee, rfl⟩ := h
  have hcoll : inColl.raw = inCollateral debt.val twap.raw := by
    obtain ⟨-, hraw, -⟩ := Dec.quo_ok.mp hquo
    rw [Dec.ofInt_raw, Int.tdiv_eq_ediv_of_nonneg hnum,
      chop_of_nonneg (Int.ediv_nonneg hnum hp.le)] at hraw
    exact hraw
  have hcoll₀ : 0 ≤ inColl.raw := by
    rw [hcoll]
    exact inCollateral_nonneg hd hp
  have hfactor' : factor.raw = precision + penalty.raw := (Dec.add_ok.mp hfactor).1
  have hs := portion_ok hcoll₀ (by omega) hseize hseize'
  have hr := portion_ok hcoll₀ hrew hreward hreward'
  rw [hcoll] at hr
  rw [hcoll, hfactor'] at hs
  refine ⟨?_, ?_, SdkInt.sub_ok.mp hfee⟩
  · rw [SdkInt.capAt_val, hs]
  · rw [SdkInt.capAt_val, hr]

end Zytherion.Seizure
