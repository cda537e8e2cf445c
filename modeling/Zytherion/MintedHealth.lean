import Zytherion.MintBound
import Zytherion.Repayment

/-!
# Minting and the liquidation threshold

A mint compares the deposit it brings with the debt it adds. Liquidation compares
all the collateral of a position with all of its debt. The sums have a quotient
between the two quotients, up to the rounding of the old one, which is the same
rounding liquidation applies to the new one. The deposit itself may miss the
minimum ratio by a rounding, but every asset of the default whitelist keeps more
than that between its minimum ratio and its threshold.
-/
namespace Zytherion.MintedHealth

open GoCall KeyedStore SdkMath HalfEven Application ChainState CollateralKeeper StablecoinKeeper
open CollateralMsgServer StablecoinMsgServer Chain MintBound SecuredDebt Devnet DebtLedgers

/-- The comparison by which `Liquidate` refuses a position as healthy. -/
def healthy (position : CollateralPosition) (threshold twap : Dec) : Checked Bool := do
  let value ← collateralValue position.amount twap
  if position.mintedZYTD.isZero then return true
  let currentRatio ← value.quo (Dec.ofInt position.mintedZYTD)
  return currentRatio.gte threshold

section Healthy
variable {pos : CollateralPosition} {threshold twap : Dec} {b : Bool}

theorem healthy_ok : healthy pos threshold twap = .ok b ↔
    ∃ value, collateralValue pos.amount twap = .ok value ∧
      (pos.mintedZYTD.val = 0 ∧ b = true ∨ pos.mintedZYTD.val ≠ 0 ∧
        ∃ ratio, value.quo (Dec.ofInt pos.mintedZYTD) = .ok ratio ∧ b = ratio.gte threshold) := by
  simp only [healthy, checked_bind_ok]
  apply exists_congr
  intro value
  apply and_congr_right
  intro _
  split_ifs with h
  · rw [SdkInt.isZero_iff] at h
    simp [h, pure, Except.pure, eq_comm]
  · rw [SdkInt.isZero_iff] at h
    simp only [checked_bind_ok, pure, Except.pure, Except.ok.injEq, h, false_and, false_or, ne_eq,
      not_false_eq_true, true_and]
    exact exists_congr fun _ => and_congr_right fun _ => eq_comm

/-- Whatever passes the checks of `Liquidate` was found unhealthy. -/
theorem liquidationTarget_unhealthy {A : App} {ctx : Ctx A} {req : MsgLiquidate} {s t : State}
    {target : LiquidationTarget} (h : liquidationTarget ctx req s = .ok target t) :
    A.accAddressFromBech32 req.targetOwner = .ok target.targetOwner ∧
      s.positions.get (positionKey A target.targetOwner req.ibcDenom) = some target.position ∧
      ∃ asset twap, s.assets.get (assetKey req.ibcDenom) = some asset ∧
        s.twaps.get ("twap/" ++ req.ibcDenom) = some twap ∧
        healthy target.position asset.liquidationThreshold twap.twap = .ok false := by
  simp only [liquidationTarget, bind_ok, address_ok, mapErr_ok, getPosition, getCollateralAsset,
    getTWAP, lookup_ok, liftM_ok, require_ok, Bool.not_eq_true', SdkInt.isZero_eq_false,
    pure_ok] at h
  obtain ⟨_, _, ⟨-, rfl⟩, owner, _, ⟨howner, rfl⟩, _, _, hsig, position, _, ⟨hp, rfl⟩, asset, _,
    ⟨hasset, rfl⟩, twap, _, ⟨htwap, rfl⟩, value, _, ⟨hvalue, rfl⟩, _, _, ⟨hdebt, rfl⟩, ratio, _,
    ⟨hratio, rfl⟩, _, _, ⟨hbelow, rfl⟩, rfl, rfl⟩ := h
  obtain rfl := verifyZYTDPQCSig_ok hsig
  exact ⟨howner, hp, asset, twap, hasset, htwap,
    healthy_ok.mpr ⟨value, hvalue, .inr ⟨hdebt, ratio, hratio, hbelow.symm⟩⟩⟩

theorem healthy_returns (threshold : Dec) (hamount : 0 ≤ pos.amount.val)
    (hdebt : 0 < pos.mintedZYTD.val) (hp : 0 ≤ twap.raw)
    (hfits : pos.amount.val * twap.raw < decBound) :
    ∃ value ratio : Dec, value.raw = pos.amount.val * twap.raw ∧
      value.quo (Dec.ofInt pos.mintedZYTD) = .ok ratio ∧
      healthy pos threshold twap = .ok (ratio.gte threshold) := by
  have hE := precision_pos
  have hnonneg := mul_nonneg hamount hp
  have hvalue : collateralValue pos.amount twap = .ok ⟨pos.amount.val * twap.raw⟩ := by
    rw [collateralValue, Dec.mul_ok, Dec.chop_ofInt_mul]
    exact ⟨rfl, by omega⟩
  have hroom : pos.amount.val * twap.raw * precision ≤
      pos.amount.val * twap.raw * (pos.mintedZYTD.val * precision) :=
    mul_le_mul_of_nonneg_left (le_mul_of_one_le_left hE.le hdebt) hnonneg
  obtain ⟨ratio, hratio, -⟩ := Dec.quo_returns (a := ⟨pos.amount.val * twap.raw⟩)
    (b := Dec.ofInt pos.mintedZYTD) hnonneg (mul_pos hdebt hE) hroom hfits
  exact ⟨_, ratio, rfl, hratio, healthy_ok.mpr ⟨_, hvalue, .inr ⟨hdebt.ne', ratio, hratio, rfl⟩⟩⟩

end Healthy

/-- The minimum ratio `r` exceeds the threshold by more than a rounding of the
mint limit can give away. -/
def Margin (threshold minRatio : Dec) : Prop :=
  0 < minRatio.raw ∧ minRatio.raw ≤ 2 * precision * (minRatio.raw - threshold.raw)

instance (threshold minRatio : Dec) : Decidable (Margin threshold minRatio) :=
  inferInstanceAs (Decidable (_ ∧ _))

theorem default_margin : ∀ asset ∈ defaultCollateralAssets,
    Margin asset.liquidationThreshold asset.minRatio := by
  decide

/-- What a mint accepts is worth the threshold times the new debt. -/
theorem deposit_covers {usd minRatio threshold : Dec} {limit requested : SdkInt}
    (hm : Margin threshold minRatio) (husd : 0 ≤ usd.raw)
    (h : maxMintable usd minRatio = .ok limit) (hpos : 0 < requested.val)
    (hle : requested.val ≤ limit.val) : threshold.raw * requested.val ≤ usd.raw := by
  obtain ⟨hr, hmargin⟩ := hm
  have hE := precision_pos
  rw [maxMintable_val husd hr h, Int.le_ediv_iff_mul_le hE,
    mul_le_halfEven_iff hE (by decide)] at hle
  have hdiv := Int.ediv_mul_le (usd.raw * (precision * precision)) hr.ne'
  generalize usd.raw * (precision * precision) / minRatio.raw = q at *
  have hscaled : precision * ((2 * requested.val * precision - 1) * minRatio.raw) ≤
      precision * (2 * precision * usd.raw) :=
    calc precision * ((2 * requested.val * precision - 1) * minRatio.raw)
        = (2 * (requested.val * precision) * precision - precision) * minRatio.raw := by ring
      _ ≤ 2 * q * minRatio.raw := mul_le_mul_of_nonneg_right (by omega) hr.le
      _ ≤ precision * (2 * precision * usd.raw) := by linarith
  have hworth := le_of_mul_le_mul_left hscaled hE
  have hgap : 0 ≤ minRatio.raw - threshold.raw := by
    by_contra hneg
    nlinarith
  have hall := mul_le_mul_of_nonneg_left (le_mul_of_one_le_left hgap hpos)
    (by omega : 0 ≤ 2 * precision)
  apply le_of_mul_le_mul_left _ (by omega : 0 < 2 * precision)
  linarith

section Mint
variable {A : App} {ctx : Ctx A} {s t : State} {req : MsgMintZYTD} {terms : MintTerms}

/-- A healthy position stays healthy when a deposit worth the threshold times the
new debt is added to it. -/
theorem healthy_of_add {pos : CollateralPosition} (pos' : CollateralPosition)
    {threshold twap : Dec} {c r : ℤ}
    (hp : 0 < twap.raw) (hamount : 0 ≤ pos.amount.val) (hdebt : 0 ≤ pos.mintedZYTD.val)
    (h : healthy pos threshold twap = .ok true) (hc : 0 ≤ c) (hr : 0 < r)
    (hcovers : threshold.raw * r ≤ c * twap.raw) (hamount' : pos'.amount.val = pos.amount.val + c)
    (hdebt' : pos'.mintedZYTD.val = pos.mintedZYTD.val + r)
    (hfits : pos'.amount.val * twap.raw < decBound) : healthy pos' threshold twap = .ok true := by
  have hE := precision_pos
  obtain ⟨total, ratio, htotal, hratio, hreturns⟩ :=
    healthy_returns threshold (by omega) (by omega) hp.le hfits
  rw [hreturns, Except.ok.injEq, Dec.gte_iff]
  have hold : 0 ≤ pos.amount.val * twap.raw := mul_nonneg hamount hp.le
  have hnew : 0 ≤ c * twap.raw := mul_nonneg hc hp.le
  have hmore : 0 < (Dec.ofInt pos'.mintedZYTD).raw := mul_pos (by omega) hE
  rw [hamount', add_mul] at htotal
  obtain ⟨value, hvalue, ⟨hzero, -⟩ | ⟨hne, old, hquo, hthreshold⟩⟩ := healthy_ok.mp h
  · apply Dec.le_quo (by omega) hmore hratio
    calc threshold.raw * (Dec.ofInt pos'.mintedZYTD).raw
        = threshold.raw * r * precision := by rw [Dec.ofInt_raw, hdebt', hzero, zero_add, mul_assoc]
      _ ≤ total.raw * precision := mul_le_mul_of_nonneg_right (by omega) hE.le
  · obtain ⟨hraw, -⟩ := collateralValue_ok hvalue
    have hsome : 0 < (Dec.ofInt pos.mintedZYTD).raw := mul_pos (by omega) hE
    apply Dec.le_quo_of_add (x := ⟨c * twap.raw⟩) (y := ⟨r * precision⟩) (by omega) hsome hquo
      (Dec.gte_iff.mp hthreshold.symm) hnew (mul_nonneg hr.le hE.le) _ _ _ hratio
    · show threshold.raw * (r * precision) ≤ c * twap.raw * precision
      rw [← mul_assoc]
      exact mul_le_mul_of_nonneg_right hcovers hE.le
    · rw [htotal, hraw]
    · rw [Dec.ofInt_raw, hdebt', add_mul, Dec.ofInt_raw]

/-- A position that is not there yet counts as healthy. -/
theorem positionOr_healthy (ctx : Ctx A) {owner : AccAddress} {d : String} {threshold twap : Dec}
    (h : ∀ pos, s.positions.get (positionKey A owner d) = some pos →
      0 ≤ pos.amount.val ∧ 0 ≤ pos.mintedZYTD.val ∧ healthy pos threshold twap = .ok true) :
    0 ≤ (positionOr ctx s owner d).amount.val ∧ 0 ≤ (positionOr ctx s owner d).mintedZYTD.val ∧
      healthy (positionOr ctx s owner d) threshold twap = .ok true := by
  unfold positionOr
  cases hp : s.positions.get (positionKey A owner d) with
  | none =>
      refine ⟨le_refl 0, le_refl 0, healthy_ok.mpr ⟨⟨0⟩, ?_, .inl ⟨rfl, rfl⟩⟩⟩
      rw [collateralValue, Dec.mul_ok, Dec.chop_ofInt_mul]
      simp [freshPosition, decBound]
  | some pos => exact h pos hp

theorem not_liquidated {ctx : Ctx A} {msg : MsgLiquidate} {target : LiquidationTarget} {u : State}
    {owner : AccAddress} {pos : CollateralPosition} {asset : CollateralAsset} {twap : TWAPData}
    (howner : A.accAddressFromBech32 msg.targetOwner = .ok owner)
    (hpos : t.positions.get (positionKey A owner msg.ibcDenom) = some pos)
    (hasset : t.assets.get (assetKey msg.ibcDenom) = some asset)
    (htwap : t.twaps.get ("twap/" ++ msg.ibcDenom) = some twap)
    (h : pos.amount.val * twap.twap.raw < decBound →
      healthy pos asset.liquidationThreshold twap.twap = .ok true) :
    liquidationTarget ctx msg t ≠ .ok target u := by
  intro hpassed
  obtain ⟨howner', hpos', asset', twap', hasset', htwap', hbad⟩ :=
    liquidationTarget_unhealthy hpassed
  rw [← Except.ok.inj (howner.symm.trans howner'), hpos, Option.some.injEq] at hpos'
  rw [hasset, Option.some.injEq] at hasset'
  rw [htwap, Option.some.injEq] at htwap'
  subst hpos' hasset' htwap'
  obtain ⟨value, hvalue, -⟩ := healthy_ok.mp hbad
  obtain ⟨-, hfits⟩ := collateralValue_ok hvalue
  rw [h (by omega)] at hbad
  cases hbad

/-- The deposit of an accepted request is worth the debt at the threshold. -/
theorem terms_covered {ctx : Ctx A} {req : MsgMintZYTD} {terms : MintTerms} {s t : State}
    {asset : CollateralAsset} {twap : TWAPData} (h : mintTerms ctx req s = .ok terms t)
    (hasset : s.assets.get (assetKey req.ibcDenom) = some asset)
    (hdefault : asset ∈ defaultCollateralAssets)
    (htwap : s.twaps.get ("twap/" ++ req.ibcDenom) = some twap)
    (hvalue : 0 ≤ terms.amount.val * twap.twap.raw) (hpos : 0 < terms.requested.val) :
    asset.liquidationThreshold.raw * terms.requested.val ≤ terms.amount.val * twap.twap.raw := by
  obtain ⟨-, -, -, -, asset', twap', limit, hasset', -, htwap', husd, hlimit, hle⟩ := mintTerms_ok h
  obtain rfl : asset = asset' := Option.some.inj (hasset.symm.trans hasset')
  obtain rfl : twap = twap' := Option.some.inj (htwap.symm.trans htwap')
  obtain ⟨hraw, -⟩ := collateralValue_ok husd
  rw [← hraw] at hvalue ⊢
  exact deposit_covers (default_margin asset hdefault) hvalue hlimit hpos hle

/-- For every asset of the default whitelist and every price, a successful mint on
a position that liquidation refuses as healthy, or on none, leaves a position that
liquidation refuses as healthy at that price. The comparison itself returns unless
the value of the collateral overflows. -/
theorem minting_keeps_healthy (A : App) (ctx : Ctx A) (s t : State) (req : MsgMintZYTD)
    (minted : SdkInt) (sender : AccAddress) (asset : CollateralAsset) (twap : TWAPData)
    (hk : Keyed A s) (hvalid : req.validateBasic A s = .ok () s)
    (hsender : A.accAddressFromBech32 req.sender = .ok sender)
    (hasset : s.assets.get (assetKey req.ibcDenom) = some asset)
    (hdefault : asset ∈ defaultCollateralAssets)
    (htwap : s.twaps.get ("twap/" ++ req.ibcDenom) = some twap) (hp : 0 < twap.twap.raw)
    (hposition : ∀ pos, s.positions.get (positionKey A sender req.ibcDenom) = some pos →
      0 ≤ pos.amount.val ∧ 0 ≤ pos.mintedZYTD.val ∧
        healthy pos asset.liquidationThreshold twap.twap = .ok true)
    (hmint : mintZYTD ctx req s = .ok minted t) :
    ∃ pos, t.positions.get (positionKey A sender req.ibcDenom) = some pos ∧
      (pos.amount.val * twap.twap.raw < decBound →
        healthy pos asset.liquidationThreshold twap.twap = .ok true) ∧
      ∀ (ctx' : Ctx A) (msg : MsgLiquidate) (target : LiquidationTarget) (u : State),
        A.accAddressFromBech32 msg.targetOwner = .ok sender → msg.ibcDenom = req.ibcDenom →
          liquidationTarget ctx' msg t ≠ .ok target u := by
  obtain ⟨terms, hterms, hminted⟩ := mintZYTD_ok hk hmint
  obtain rfl : sender = terms.sender := Except.ok.inj (hsender.symm.trans hminted.sender)
  obtain ⟨-, -, n, hn, hpos⟩ := MsgMintZYTD.validateBasic_ok hvalid
  obtain rfl : n = terms.requested := Option.some.inj (hn.symm.trans hminted.requested)
  have hcovers := terms_covered hterms hasset hdefault htwap
    (mul_nonneg hminted.deposit_nonneg hp.le) hpos
  obtain ⟨hold, hdebt, hhealthy⟩ := positionOr_healthy ctx hposition
  obtain ⟨v, w, hv, hw, -, hstored⟩ := hminted.position
  generalize hnew : ({ positionOr ctx s terms.sender req.ibcDenom with
    amount := v, mintedZYTD := w } : CollateralPosition) = pos at hstored
  have hkept := healthy_of_add pos hp hold hdebt hhealthy hminted.deposit_nonneg hpos hcovers
    (by rw [← hnew, ← hv]) (by rw [← hnew, ← hw])
  have hfound : t.positions.get (positionKey A terms.sender req.ibcDenom) = some pos := by
    rw [hstored, Store.get_set_self]
  refine ⟨pos, hfound, hkept, ?_⟩
  intro ctx' msg target u howner hdenom
  obtain ⟨hassets, htwaps, -⟩ := hminted.rest
  rw [← hassets] at hasset
  rw [← htwaps] at htwap
  rw [← hdenom] at hasset htwap hfound
  exact not_liquidated howner hfound hasset htwap hkept

end Mint

theorem aliceMints_again :
    (mintZYTD block (aliceAsks (.newInt 100) (.newInt 50))
        (run step (genesis devnet treasury) aliceMints)).returned = some (.newInt 50) ∧
      (run step (genesis devnet treasury) aliceMints).assets.get (assetKey "uzytc") =
        some ⟨"uzytc", "ZYTC", .newDecWithPrec 200 2, .newDecWithPrec 150 2, true⟩ ∧
      (run step (genesis devnet treasury) aliceMints).twaps.get "twap/uzytc" =
        some ⟨"uzytc", .one, 0, 0, 1⟩ := by
  decide +kernel

/-- The position of `alice` is worth twice its debt, and still is after another mint. -/
theorem aliceMints_again_healthy :
    ∃ t, mintZYTD block (aliceAsks (.newInt 100) (.newInt 50))
        (run step (genesis devnet treasury) aliceMints) = .ok (.newInt 50) t ∧
      ∃ pos, t.positions.get (positionKey devnet alice "uzytc") = some pos ∧
        (pos.amount.val * Dec.one.raw < decBound →
          healthy pos (.newDecWithPrec 150 2) .one = .ok true) := by
  obtain ⟨hreturned, hasset, htwap⟩ := aliceMints_again
  obtain ⟨t, ht⟩ := returned_iff.mp hreturned
  obtain ⟨pos, hpos, hhealthy, -⟩ := minting_keeps_healthy devnet block _ t _ _ alice _ _
    (run_ledgers devnet treasury aliceMints).keyed (aliceAsks_valid (by decide) (by decide) _)
    (devnet.accAddressFromBech32_text alice) hasset (by decide) htwap (by decide)
    (fun pos hpos => by
      obtain rfl := Option.some.inj (aliceMints_position.symm.trans hpos)
      exact ⟨by decide, by decide, by decide +kernel⟩) ht
  exact ⟨t, ht, pos, hpos, hhealthy⟩

end Zytherion.MintedHealth
